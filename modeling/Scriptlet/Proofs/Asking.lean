/-
Asking values for something through their hooks.  A thread that goes on by itself
comes to the answer step by step; what it comes to in a frame above those that wait
leads on to what they get.
-/
import Scriptlet.Proofs.Moments

namespace Scriptlet

/-- How an evaluation ends that gives a value, or fails for a cause. -/
def Outcome.ofResult : Except Fault Value → Outcome
  | .ok v => .value v
  | .error fault => .failed (Failure.ofFault fault)

/-- An outcome with the calls going on, if it is a failure that has none. -/
def Outcome.withTrace (calls : List CallSite) : Outcome → Outcome
  | .failed f => .failed (f.withTrace calls)
  | o => o

namespace Task

variable {limits : Limits} {t u : Task} {s s' s'' : Store} {o o' : Outcome}

/-- That a thread, going on by itself, gives an outcome to the frames of `t`: it stays above
them until they get it, and is then as `t` but for the outcome. -/
inductive Gets (limits : Limits) (t : Task) (o : Outcome) (s' : Store) : Task → Store → Prop where
  | already : Gets limits t o s' (t.doing (.outcome o)) s'
  | step {u : Task} {s : Store} (habove : t.frames <:+ u.frames) (hgoing : ¬ u.EndedAt t.frames)
      (h : Gets limits t o s' (u.step limits s).1 (u.step limits s).2) : Gets limits t o s' u s

/-- The outcome that some frames get is the only one. -/
theorem Gets.unique (h : t.Gets limits o s' u s) (h' : t.Gets limits o' s'' u s) :
    o' = o ∧ s'' = s' := by
  induction h with
  | already =>
      generalize hu : t.doing (.outcome o) = u at h'
      cases h' with
      | already => exact ⟨(Control.outcome.inj (congrArg Task.control hu)).symm, rfl⟩
      | step _ hgoing _ => exact absurd ⟨by rw [← hu]; rfl, o, by rw [← hu]; rfl⟩ hgoing
  | step _ hgoing _ ih =>
      cases h' with
      | already => exact absurd ⟨rfl, o', rfl⟩ hgoing
      | step _ _ h' => exact ih h'

theorem Gets.iff (h : t.Gets limits o s' u s) :
    t.Gets limits o' s'' u s ↔ o' = o ∧ s'' = s' := by
  constructor
  · exact h.unique
  · rintro ⟨rfl, rfl⟩
    exact h

/-- A thread that is not yet at an outcome takes a step. -/
theorem Gets.of_step {c : Control} (hc : ∀ o, c ≠ .outcome o)
    (h : t.Gets limits o s' ((t.doing c).step limits s).1 ((t.doing c).step limits s).2) :
    t.Gets limits o s' (t.doing c) s := by
  refine .step (List.suffix_refl _) ?_ h
  rintro ⟨-, o, ho⟩
  exact hc o ho

theorem step_outcome {f : Frame} {rest : List Frame} (ht : t.frames = f :: rest) :
    (t.doing (.outcome o)).step limits s =
      ({ t with frames := rest }.doing (.outcome o)).resume s o f := by
  obtain ⟨control, frames, scope, depth, calls, file⟩ := t
  obtain rfl : frames = f :: rest := ht
  rfl

/-- What a frame on top gets leads on to what the frames below get. -/
theorem Gets.pop {r : Task} {f : Frame} (hr : r.frames = f :: t.frames)
    (h : r.Gets limits o s' u s)
    (hrest : t.Gets limits o' s''
      (({ r with frames := t.frames }.doing (.outcome o)).resume s' o f).1
      (({ r with frames := t.frames }.doing (.outcome o)).resume s' o f).2) :
    t.Gets limits o' s'' u s := by
  have hlonger : ∀ {frames : List Frame}, r.frames <:+ frames →
      t.frames <:+ frames ∧ frames ≠ t.frames := by
    rintro frames hsuffix
    rw [hr] at hsuffix
    refine ⟨(List.suffix_cons f t.frames).trans hsuffix, ?_⟩
    rintro rfl
    exact absurd hsuffix.length_le (Nat.not_succ_le_self _)
  induction h with
  | already =>
      obtain ⟨habove, hne⟩ := hlonger (List.suffix_refl _)
      refine .step habove (fun hended => hne hended.1) ?_
      rwa [step_outcome hr]
  | step habove _ _ ih =>
      obtain ⟨habove, hne⟩ := hlonger habove
      exact .step habove (fun hended => hne hended.1) ih

def hooked (t : Task) : Task := { t with frames := .leaveHook :: t.frames, depth := t.depth + 1 }

/-- A hook is too deep where no room is left. -/
theorem gets_hook_tooDeep (hroom : limits.maxDepth ≤ t.depth) (s : Store) (v : Value)
    (name : String) (args : List Value) :
    t.Gets limits (.ofResult (.error .tooDeep)) s (t.doing (.hook v name args)) s := by
  have hdeep : limits.maxDepth < t.depth + 1 := by omega
  refine .of_step (fun _ => nofun) ?_
  simp only [step, doing, callHook, hdeep, if_true]
  exact .already

/-- A hook gets what the call of the member gets that has its name. -/
theorem gets_hook {v f : Value} {name : String} {args : List Value}
    (hroom : t.depth < limits.maxDepth) (hmember : s.member v name = (.ok f, s))
    (h : t.hooked.Gets limits o s' (t.hooked.doing (.call f (v :: args))) s) :
    t.Gets limits o s' (t.doing (.hook v name args)) s := by
  have hdepth : ¬ limits.maxDepth < t.depth + 1 := by omega
  refine .of_step (fun _ => nofun) ?_
  simp only [step, doing, callHook, hdepth, if_false, hmember]
  exact h.pop rfl .already

/-- What a hook that is to answer with a certain type gets, if that is of the type. -/
theorem Gets.check {c : HookCheck} {subject : Value}
    (h : (t.pushed (.check c subject)).Gets limits o s' u s)
    (ho : (∃ f, o = .failed f) ∨ ∃ v, o = .value v ∧ c.accepts v = true) :
    t.Gets limits o s' u s := by
  refine h.pop rfl ?_
  obtain ⟨f, rfl⟩ | ⟨v, rfl, haccepts⟩ := ho
  · exact .already
  · simp only [resume, resumeValue, haccepts, if_true]
    exact .already

theorem gets_answered (r : Except Fault Value) (s : Store) :
    t.Gets limits (.ofResult r) s (t.answered (r, s)).1 (t.answered (r, s)).2 := by
  cases r <;> exact .already

/-- A built-in operation that neither calls back nor waits gets its answer. -/
theorem gets_answer {b : Builtin} {args : List Value} {r : Except Fault Value}
    (harity : b.arity = some args.length) (hback : b.callsBack = false)
    (hanswer : b.answer s args = (r, s')) :
    t.Gets limits (.ofResult r) s' (t.doing (.call (.builtin b) args)) s := by
  refine .of_step (fun _ => nofun) ?_
  have hgiven : b.arity.any (fun n => n != args.length) = false := by
    rw [harity, Option.any_some, bne_self_eq_false]
  simp only [step, doing, call, hgiven, hback, hanswer, Bool.false_eq_true, if_false]
  exact gets_answered r s'

/-- A built-in operation that may call back gets what calling back gets. -/
theorem gets_callBack {b : Builtin} {args : List Value}
    (harity : b.arity = some args.length) (hback : b.callsBack = true)
    (h : t.Gets limits o s'
      ((t.doing (.call (.builtin b) args)).callBack s b args).1
      ((t.doing (.call (.builtin b) args)).callBack s b args).2) :
    t.Gets limits o s' (t.doing (.call (.builtin b) args)) s := by
  refine .of_step (fun _ => nofun) ?_
  have hgiven : b.arity.any (fun n => n != args.length) = false := by
    rw [harity, Option.any_some, bne_self_eq_false]
  simpa only [step, doing, call, hgiven, hback, Bool.false_eq_true, if_false, if_true] using h

/-- A call from a place in the script gets what the call gets; a failure has its trace. -/
theorem gets_applying {callee : Value} {args : List Value} {site : Position}
    (h : Gets limits { t with
        frames := .leaveCall :: t.frames
        calls := ⟨s.calleeName callee, t.file, site⟩ :: t.calls } o s'
      (t.applying s callee args site) s) :
    t.Gets limits (o.withTrace (⟨s.calleeName callee, t.file, site⟩ :: t.calls)) s'
      (t.applying s callee args site) s := by
  refine h.pop rfl ?_
  cases o <;> exact .already

/-- A method of a value that takes no arguments, and neither calls back nor waits, gets its
answer. -/
theorem gets_method {b : Builtin} {receiver : Value} {field : Ident} {env : Environment}
    {r : Except Fault Value} (hreceiver : ∀ m, receiver ≠ .module m)
    (hmember : s.member receiver field.name = (.ok (.builtin b), s)) (harity : b.arity = some 1)
    (hback : b.callsBack = false) (hanswer : b.answer s [receiver] = (r, s')) :
    t.Gets limits
      ((Outcome.ofResult r).withTrace (⟨b.name, t.file, field.position⟩ :: t.calls)) s'
      (t.useMember s receiver field env (some [])).1
      (t.useMember s receiver field env (some [])).2 := by
  have hcall : t.useMember s receiver field env (some []) =
      (t.applying s (.builtin b) [receiver] field.position, s) := by
    simp only [useMember, hmember, gather, List.reverse_nil]
    cases receiver with
    | module m => exact absurd rfl (hreceiver m)
    | _ => rfl
  rw [hcall]
  exact gets_applying (gets_answer harity hback hanswer)

end Task

end Scriptlet
