/-
What a step of a thread does to the nodes that the thread carries, in what it is
about to do and in its frames, and to its failure.  Among nodes that are closed
a step stays among them; and a failure that was not there before is a new one,
with no place.
-/
import Scriptlet.Proofs.CallForms
import Scriptlet.Proofs.Nodes
import Scriptlet.Proofs.StepForms

namespace Scriptlet

variable {N : SyntaxNode → Prop}

/-- What a thread does that is about to evaluate a node. -/
def SyntaxNode.control (env : Environment) : SyntaxNode → Control
  | .expr e => .expr e env
  | .stmt s => .stmt s env
  | .block b => .block b env

theorem SyntaxNode.control_ne_outcome (n : SyntaxNode) (env : Environment) (o : Outcome) :
    n.control env ≠ .outcome o := by
  cases n <;> exact Control.noConfusion

namespace Control

/-- Whether a thread that is about to do so has code of some nodes only.  Programs
are no nodes. -/
def Within (N : SyntaxNode → Prop) : Control → Prop
  | .expr e _ => N (.expr e)
  | .stmt s _ => N (.stmt s)
  | .block b _ => N (.block b)
  | .program _ _ => False
  | _ => True

def IsNew : Control → Prop
  | .outcome (.failed f) => f = .ofFault f.fault
  | _ => True

theorem of_within_control {n : SyntaxNode} {env : Environment} (h : (n.control env).Within N) :
    N n := by
  cases n <;> exact h

theorem isNew_of_not_failed {o : Outcome} (h : ∀ f, o ≠ .failed f) : (outcome o).IsNew := by
  cases o with
  | failed f => exact absurd rfl (h f)
  | _ => exact trivial

end Control

namespace Frame

/-- Whether a frame leaves no node or program and has code of some nodes only. -/
def Within (N : SyntaxNode → Prop) : Frame → Prop
  | .leaveNode _ _ | .program _ _ => False
  | .block rest _ => ∀ s ∈ rest, N (.stmt s)
  | .storeValue object subscript _ => N (.expr object) ∧ N (.expr subscript)
  | .storeObject subscript _ _ => N (.expr subscript)
  | .branchCondition body rest otherwise _ | .branchTruth body rest otherwise _ =>
    N (.block body) ∧ (∀ b ∈ rest, ∀ n ∈ b.children, N n) ∧ ∀ b ∈ otherwise, N (.block b)
  | .whileCondition condition body _ | .whileTruth condition body _
  | .whileBody condition body _ => N (.expr condition) ∧ N (.block body)
  | .forSource _ body _ | .forIterator _ body _ | .forNext _ _ body _ | .forBody _ _ body _ =>
    N (.block body)
  | .items _ _ _ rest => ∀ e ∈ rest, N (.expr e)
  | .leftOperand _ right _ | .firstTerm _ right _ | .firstTruth _ _ right _ => N (.expr right)
  | .callee args _ _ => ∀ e ∈ args, N (.expr e)
  | .receiver _ args _ => ∀ es ∈ args, ∀ e ∈ es, N (.expr e)
  | .indexObject subscript _ => N (.expr subscript)
  | _ => True

theorem Within.ne_leaveNode {f : Frame} (h : f.Within N) (q : Option Position)
    (outer : Option Environment) : f ≠ .leaveNode q outer := by
  rintro rfl
  exact h

/-- Where a failure stands once a frame has let it pass: a node gives its place to
one that has none. -/
def placing (p : Position) : Frame → Position
  | .leaveNode (some q) _ => if p.isKnown then p else q
  | _ => p

theorem placing_of_isKnown {p : Position} (f : Frame) (h : p.isKnown = true) : f.placing p = p := by
  cases f with
  | leaveNode position outer =>
      cases position with
      | none => rfl
      | some q => exact if_pos h
  | _ => rfl

theorem placing_of_ne {f : Frame} {p : Position} (h : ∀ q outer, f ≠ .leaveNode q outer) :
    f.placing p = p := by
  cases f with
  | leaveNode q outer => exact absurd rfl (h q outer)
  | _ => rfl

end Frame

namespace Task

/-- A thread goes on above the frames in `base`: what it is about to do, and the
frames above, have code of some nodes only, no frame above leaves a node, and a
failure is new. -/
structure Advances (N : SyntaxNode → Prop) (base : List Frame) (u : Task) : Prop where
  code : u.control.Within N
  isNew : u.control.IsNew
  frames : ∃ above, u.frames = above ++ base ∧ ∀ f ∈ above, f.Within N

namespace Advances

variable {base : List Frame} {t u : Task}

theorem turning {c : Control} (hc : c.Within N) (hnew : c.IsNew) :
    (t.doing c).Advances N t.frames :=
  ⟨hc, hnew, [], rfl, List.forall_mem_nil _⟩

theorem having (v : Value) : (t.having v).Advances N t.frames := turning trivial trivial

theorem failing (fault : Fault) : (t.failing fault).Advances N t.frames := turning trivial rfl

theorem answered (a : Answer) : (t.answered a).1.Advances N t.frames := by
  obtain ⟨answer, s⟩ := a
  cases answer with
  | ok v => exact having v
  | error fault => exact failing fault

/-- A frame with code of the nodes may be pushed anywhere. -/
theorem behind {f : Frame} (h : u.Advances N (f :: base)) (hf : f.Within N) :
    u.Advances N base := by
  obtain ⟨hcode, hnew, above, hframes, habove⟩ := h
  refine ⟨hcode, hnew, above ++ [f], ?_, ?_⟩
  · rw [hframes, List.append_assoc, List.singleton_append]
  · exact List.forall_mem_append.mpr ⟨habove, List.forall_mem_singleton.mpr hf⟩

theorem awaiting {f : Frame} {c : Control} (hf : f.Within N) (hc : c.Within N) (hnew : c.IsNew) :
    (t.awaiting f c).Advances N t.frames :=
  (turning (t := t.pushed f) hc hnew).behind hf

theorem applying (s : Store) (callee : Value) (args : List Value) (site : Position) :
    (t.applying s callee args site).Advances N t.frames :=
  ⟨trivial, trivial, [.leaveCall], rfl, List.forall_mem_singleton.mpr trivial⟩

end Advances

variable {t : Task} {s : Store}

theorem advances_askTruth (t : Task) (v : Value) : (t.askTruth v).Advances N t.frames := by
  unfold askTruth
  split
  · exact .having _
  · exact .awaiting trivial trivial trivial

theorem advances_askText (t : Task) (v : Value) : (t.askText v).Advances N t.frames :=
  .awaiting trivial trivial trivial

theorem advances_askEqual (t : Task) (s : Store) (a b : Value) :
    (t.askEqual s a b).Advances N t.frames := by
  unfold askEqual
  split
  · exact .awaiting trivial trivial trivial
  · exact .having _

theorem advances_printing (t : Task) (s : Store) (done : List Text) (values : List Value) :
    (t.printing s done values).1.Advances N t.frames := by
  induction values generalizing done with
  | nil => exact .answered _
  | cons v rest ih =>
      cases v with
      | str text id => exact ih _
      | _ => exact (advances_askText (t.pushed _) _).behind trivial

theorem advances_listText (t : Task) (s : Store) (done : List Text) (values : List Value) :
    (t.listText s done values).1.Advances N t.frames := by
  cases values with
  | nil => exact .answered _
  | cons v rest => exact (advances_askText (t.pushed _) v).behind trivial

theorem advances_comparePairs (t : Task) (s : Store) (pairs : List (Value × Value)) :
    (t.comparePairs s pairs).Advances N t.frames := by
  cases pairs with
  | nil => exact .having _
  | cons pair rest => exact (advances_askEqual (t.pushed _) s pair.1 pair.2).behind trivial

theorem advances_seek (t : Task) (s : Store) (target : Value) (index : Nat) (onlyWhether : Bool)
    (values : List Value) : (t.seek s target index onlyWhether values).Advances N t.frames := by
  cases values with
  | nil => exact .having _
  | cons v rest => exact (advances_askEqual (t.pushed _) s v target).behind trivial

theorem advances_sleeping (t : Task) (s : Store) (ms : Float) :
    (sleeping t s ms).Advances N t.frames := by
  unfold sleeping
  split
  · exact .having _
  · exact .turning trivial trivial

theorem advances_useMutex (t : Task) (s : Store) (m : MutexMethod) (id : Nat) (cell : MutexCell)
    (arg : Option Value) : (t.useMutex s m id cell arg).1.Advances N t.frames := by
  cases m with
  | get => exact .having _
  | set => exact .having _
  | update => exact (Advances.applying (t := t.pushed _) _ _ _ _).behind trivial

/-- Where no thread was started there is no failure left behind to be joined. -/
theorem joined?_ne_error (hthreads : s.threads.size = 0) (ids : List Nat) (f : Failure) :
    joined? s ids ≠ some (.error f) := by
  cases ids with
  | nil => simp [joined?]
  | cons id rest =>
      have hnone : s.threads[id]? = none := Array.getElem?_eq_none (by omega)
      simp [joined?, hnone]

theorem joinThread_eq (hthreads : s.threads.size = 0) (t : Task) (id : Nat) :
    t.joinThread s id = t := by
  have hnone : s.threads[id]? = none := Array.getElem?_eq_none (by omega)
  simp [joinThread, hnone]

theorem advances_callBack (hthreads : s.threads.size = 0) (t : Task) (b : Builtin)
    (args : List Value) :
    (t.callBack s b args).1 = t ∨ (t.callBack s b args).1.Advances N t.frames := by
  generalize hr : t.callBack s b args = r
  cases callBack_form hr with
  | print => exact .inr (advances_printing _ _ _ _)
  | freshText v | someText v => exact .inr ((advances_askText (t.pushed _) v).behind trivial)
  | text | restless | refused => exact .inr (.answered _)
  | length | joinPool => exact .inr (.turning trivial trivial)
  | spawned | decided | noMutex => exact .inr (.having _)
  | sleep => exact .inr (advances_sleeping _ _ _)
  | assertTruth v => exact .inr ((advances_askTruth (t.pushed _) v).behind trivial)
  | assertEqual x y => exact .inr ((advances_askEqual (t.pushed _) s x y).behind trivial)
  | seek => exact .inr (advances_seek _ _ _ _ _ _)
  | listText => exact .inr (advances_listText _ _ _ _)
  | comparePairs => exact .inr (advances_comparePairs _ _ _)
  | optionEqual x y => exact .inr (advances_askEqual t s x y)
  | locked => exact .inl rfl
  | useMutex => exact .inr (advances_useMutex _ _ _ _ _ _)
  | joinThread => exact .inl (joinThread_eq hthreads _ _)

theorem advances_callHost (t : Task) (s : Store) (f : HostFunction) (name : String) (bound : Bool)
    (args : List Value) : (t.callHost s f name bound args).1 = t ∨
      (t.callHost s f name bound args).1.Advances N t.frames := by
  generalize hr : t.callHost s f name bound args = r
  cases callHost_form hr with
  | failing | refused => exact .inr (.failing _)
  | endless => exact .inl rfl
  | having => exact .inr (.having _)

/-- A call goes on with the body of a function at most. -/
theorem advances_call (hthreads : s.threads.size = 0) (t : Task) (callee : Value)
    (args : List Value) (hbody : ∀ f id, callee = .function f id → N (.block f.body)) :
    (t.call s callee args).1 = t ∨ (t.call s callee args).1.Advances N t.frames := by
  generalize hr : t.call s callee args = r
  cases call_form hr with
  | arity | notCallable => exact .inr (.failing _)
  | function => exact .inr (.awaiting trivial (hbody _ _ rfl) trivial)
  | callBack => exact advances_callBack hthreads _ _ _
  | answered => exact .inr (.answered _)
  | host => exact advances_callHost _ _ _ _ _ _
  | new => exact .inr (.having _)
  | forwarded => exact .inr (.awaiting trivial trivial trivial)

theorem advances_callHook (limits : Limits) (t : Task) (s : Store) (receiver : Value)
    (name : String) (args : List Value) :
    (t.callHook limits s receiver name args).1.Advances N t.frames := by
  generalize hr : t.callHook limits s receiver name args = r
  cases callHook_form hr with
  | tooDeep | missing => exact .failing _
  | found => exact ⟨trivial, trivial, [.leaveHook], rfl, List.forall_mem_singleton.mpr trivial⟩

theorem advances_gathered (t : Task) (s : Store) (values : List Value) (purpose : Purpose) :
    (t.gathered s values purpose).1.Advances N t.frames := by
  cases purpose with
  | list => exact .answered _
  | call callee site => exact .applying _ _ _ _
  | method member receiver site =>
      simp only [gathered]
      split <;> exact .applying _ _ _ _

theorem advances_gather (t : Task) (s : Store) (purpose : Purpose) (env : Environment)
    (done : List Value) {rest : List Expr} (hrest : ∀ e ∈ rest, N (.expr e)) :
    (t.gather s purpose env done rest).1.Advances N t.frames := by
  cases rest with
  | nil => exact advances_gathered _ _ _ _
  | cons e rest =>
      obtain ⟨he, hlater⟩ := List.forall_mem_cons.mp hrest
      exact .awaiting hlater he trivial

theorem advances_chooseFrom (t : Task) (env : Environment) {otherwise : Option Block}
    {branches : List Branch} (hbranches : ∀ b ∈ branches, ∀ n ∈ b.children, N n)
    (hotherwise : ∀ b ∈ otherwise, N (.block b)) :
    (t.chooseFrom env otherwise branches).Advances N t.frames := by
  cases branches with
  | nil =>
      cases otherwise with
      | none => exact .having _
      | some body => exact .turning (hotherwise body rfl) trivial
  | cons branch rest =>
      obtain ⟨p, condition, body⟩ := branch
      obtain ⟨hbranch, hrest⟩ := List.forall_mem_cons.mp hbranches
      obtain ⟨hcondition, hbody⟩ := List.forall_mem_cons.mp hbranch
      exact .awaiting ⟨List.forall_mem_singleton.mp hbody, hrest, hotherwise⟩ hcondition trivial

theorem advances_beginExpr (t : Task) (s : Store) (env : Environment) {e : Expr}
    (he : ∀ n ∈ e.children, N n) : (t.beginExpr s env e).1.Advances N t.frames := by
  cases e with
  | name i =>
      simp only [beginExpr]
      split
      · exact .having _
      · exact .failing _
  | int p lexeme n => exact .answered _
  | float p lexeme x => exact .answered _
  | str p text => exact .answered _
  | bool p b => exact .having _
  | null p => exact .having _
  | list p items => exact advances_gather _ _ _ _ _ (List.forall_mem_map.mp he)
  | unary p op operand =>
      have hoperand : N (.expr operand) := List.forall_mem_singleton.mp he
      exact .awaiting trivial hoperand trivial
  | binary p op left right =>
      obtain ⟨hleft, hright⟩ := List.forall_mem_cons.mp he
      have hright := List.forall_mem_singleton.mp hright
      cases op <;> exact .awaiting hright hleft trivial
  | call p callee args =>
      obtain ⟨hcallee, hargs⟩ := List.forall_mem_cons.mp he
      exact .awaiting (List.forall_mem_map.mp hargs) hcallee trivial
  | member p object field =>
      have hobject : N (.expr object) := List.forall_mem_singleton.mp he
      have hnone : ∀ es ∈ (none : Option (List Expr)), ∀ e ∈ es, N (.expr e) := by simp
      exact .awaiting hnone hobject trivial
  | method p object field args =>
      obtain ⟨hobject, hargs⟩ := List.forall_mem_cons.mp he
      refine .awaiting (fun es hes => ?_) hobject trivial
      obtain rfl := Option.mem_some_iff.mp hes
      exact List.forall_mem_map.mp hargs
  | index p object subscript =>
      obtain ⟨hobject, hsubscript⟩ := List.forall_mem_cons.mp he
      have hsubscript : N (.expr subscript) := List.forall_mem_singleton.mp hsubscript
      exact .awaiting hsubscript hobject trivial
  | lambda p params body => exact .having _

theorem advances_beginStmt (t : Task) (s : Store) (env : Environment) {st : Stmt}
    (hst : ∀ n ∈ st.children, N n) : (t.beginStmt s env st).1.Advances N t.frames := by
  cases st with
  | expr p word e =>
      have he : N (.expr e) := List.forall_mem_singleton.mp hst
      exact .turning he trivial
  | assign p target e =>
      have he : N (.expr e) := List.forall_mem_singleton.mp hst
      exact .awaiting trivial he trivial
  | store p bracket object subscript e =>
      obtain ⟨hobject, hrest⟩ := List.forall_mem_cons.mp hst
      obtain ⟨hsubscript, he⟩ := List.forall_mem_cons.mp hrest
      have he : N (.expr e) := List.forall_mem_singleton.mp he
      exact .awaiting ⟨hobject, hsubscript⟩ he trivial
  | choose p branches otherwise =>
      obtain ⟨hbranches, hotherwise⟩ := List.forall_mem_append.mp hst
      refine advances_chooseFrom _ _ (List.forall_mem_flatMap.mp hbranches) fun b hb => ?_
      exact List.forall_mem_map.mp hotherwise b (Option.mem_toList.mpr hb)
  | repeatWhile p condition body =>
      obtain ⟨hcondition, hbody⟩ := List.forall_mem_cons.mp hst
      exact .awaiting ⟨hcondition, List.forall_mem_singleton.mp hbody⟩ hcondition trivial
  | forEach p item source body =>
      obtain ⟨hsource, hbody⟩ := List.forall_mem_cons.mp hst
      have hbody : N (.block body) := List.forall_mem_singleton.mp hbody
      exact .awaiting hbody hsource trivial
  | declare f => exact .having _
  | classDef p ident fields methods => exact .having _
  | giveBack p value =>
      cases value with
      | none => exact .turning trivial trivial
      | some e =>
          have he : N (.expr e) := List.forall_mem_singleton.mp hst
          exact .awaiting trivial he trivial
  | leave p => exact .turning trivial trivial
  | skip p => exact .turning trivial trivial

theorem advances_beginBlock (t : Task) (env : Environment) {statements : List Stmt}
    (h : ∀ st ∈ statements, N (.stmt st)) : (t.beginBlock env statements).Advances N t.frames := by
  cases statements with
  | nil => exact .having _
  | cons first rest =>
      obtain ⟨hfirst, hrest⟩ := List.forall_mem_cons.mp h
      exact .awaiting hrest hfirst trivial

theorem advances_applyUnary (t : Task) (s : Store) (op : UnaryOp) (v : Value) :
    (t.applyUnary s op v).1.Advances N t.frames := by
  unfold applyUnary
  split
  · exact .failing _
  · exact .turning trivial trivial

theorem advances_applyBinary (t : Task) (s : Store) (op : BinaryOp) (left right : Value) :
    (t.applyBinary s op left right).1.Advances N t.frames := by
  unfold applyBinary
  split
  · exact advances_askEqual _ _ _ _
  · exact (advances_askEqual (t.pushed _) _ _ _).behind trivial
  · split
    · exact .turning trivial trivial
    · split <;> exact .failing _

theorem advances_useMember (t : Task) (s : Store) (object : Value) (field : Ident)
    (env : Environment) {args : Option (List Expr)} (hargs : ∀ es ∈ args, ∀ e ∈ es, N (.expr e)) :
    (t.useMember s object field env args).1.Advances N t.frames := by
  cases args with
  | none => exact .answered _
  | some es =>
      simp only [useMember]
      split
      · exact .failing _
      · exact advances_gather _ _ _ _ _ (hargs es rfl)

theorem advances_askNext (t : Task) (iterator : Value) (item : String) {body : Block}
    (env : Environment) (hbody : N (.block body)) :
    (t.askNext iterator item body env).Advances N t.frames :=
  .awaiting hbody trivial trivial

theorem advances_value {v : Value} {f : Frame} {r : Task × Store} (h : ValueForm t s v f r)
    (hf : f.Within N) : r.1.Advances N t.frames := by
  cases h with
  | passes | null | bool | binding | settled | updating => exact .having _
  | fails => exact .failing _
  | text | found => exact .answered _
  | next =>
      obtain ⟨hfirst, hrest⟩ := List.forall_mem_cons.mp hf
      exact .awaiting hrest hfirst trivial
  | storeValue => exact .awaiting hf.2 hf.1 trivial
  | storeObject | leftOperand | indexObject => exact .awaiting trivial hf trivial
  | storeSubscript => exact .awaiting trivial trivial trivial
  | branchCondition | whileCondition | firstTerm =>
      exact (advances_askTruth (t.pushed _) v).behind hf
  | branch => exact .turning hf.1 trivial
  | choose => exact advances_chooseFrom _ _ hf.2.1 hf.2.2
  | whileTruth => exact .awaiting hf hf.2 trivial
  | whileBody => exact .awaiting hf hf.1 trivial
  | forSource => exact .awaiting hf trivial trivial
  | forIterator | forBody => exact advances_askNext _ _ _ _ hf
  | forNext => exact .awaiting hf hf trivial
  | giveBack | indexSubscript => exact .turning trivial trivial
  | items | callee => exact advances_gather _ _ _ _ _ hf
  | operand => exact advances_applyUnary _ _ _ _
  | rightOperand => exact advances_applyBinary _ _ _ _ _
  | secondTerm => exact .turning hf trivial
  | receiver => exact advances_useMember _ _ _ _ _ hf
  | printing => exact advances_printing _ _ _ _
  | listText => exact advances_listText _ _ _ _
  | pairs => exact advances_comparePairs _ _ _
  | seek => exact advances_seek _ _ _ _ _ _
  | assertLeft | assertRight => exact (advances_askText (t.pushed _) _).behind trivial

/-- A frame that gets an outcome which is no failure goes on with its own code. -/
theorem advances_resume (t : Task) (s : Store) {o : Outcome} (ho : ∀ f, o ≠ .failed f) {f : Frame}
    (hf : f.Within N) : (t.resume s o f).1.Advances N t.frames := by
  generalize hr : t.resume s o f = r
  have hended : ∀ u : Task, u.control = .outcome o → u.frames = t.frames →
      u.Advances N t.frames := by
    intro u hcontrol hframes
    refine ⟨?_, ?_, [], hframes, List.forall_mem_nil _⟩
    · rw [hcontrol]
      exact trivial
    · rw [hcontrol]
      exact Control.isNew_of_not_failed ho
  cases resume_form hr with
  | exited | programReturned | programFailed | programEnds | programNext => exact hf.elim
  | leftHook | leftInstance | unlocks | skips => exact hended _ rfl rfl
  | returned =>
      cases o with
      | failed f => exact absurd rfl (ho f)
      | _ => exact hended _ rfl rfl
  | leftFunction =>
      cases o with
      | failed f => exact absurd rfl (ho f)
      | value v | returned v => exact .having _
      | left | skipped => exact .failing _
  | value v _ h => exact advances_value h hf
  | leftWhile | leftFor => exact .having _
  | againWhile => exact .awaiting hf hf.1 trivial
  | againFor => exact advances_askNext _ _ _ _ hf

theorem located_placed (s : Store) (f : Failure) (p : Position) :
    (located s f p).1.fault = f.fault ∧
      (located s f p).1.position = if f.position.isKnown then f.position else p := by
  unfold located Failure.locate
  split
  · exact ⟨rfl, rfl⟩
  · dsimp only
    split <;> exact ⟨rfl, rfl⟩

/-- A frame lets a failure pass, and it is the frame of a node that gives it a
place. -/
theorem resume_failed_placing (t : Task) (s : Store) (f : Failure) (frame : Frame) :
    ∃ g : Failure, (t.resume s (.failed f) frame).1.control = .outcome (.failed g) ∧
      (t.resume s (.failed f) frame).1.frames = t.frames ∧ g.fault = f.fault ∧
      g.position = frame.placing f.position := by
  cases frame with
  | leaveNode position outer =>
      cases position with
      | none => exact ⟨f, rfl, rfl, rfl, rfl⟩
      | some p =>
          obtain ⟨hfault, hposition⟩ := located_placed s f p
          exact ⟨_, rfl, rfl, hfault, hposition⟩
  | leaveCall =>
      refine ⟨_, rfl, rfl, ?_, ?_⟩
      · unfold Failure.withTrace
        split <;> rfl
      · unfold Failure.withTrace
        split <;> rfl
  | _ => exact ⟨f, rfl, rfl, rfl, rfl⟩

/-- Why the evaluation of a node can be refused: it would be too deep, it would be
one too many, or the run was called off. -/
inductive Refuses (limits : Limits) (t : Task) : Fault → Prop where
  | tooDeep (h : limits.maxDepth < t.depth + 1) : Refuses limits t .tooDeep
  | stepLimit : Refuses limits t (.stepLimit limits.maxSteps)
  | cancelled (reason : Text) : Refuses limits t (.cancelled reason)

theorem refuses_of_refusal {limits : Limits} {s' : Store} {fault : Fault}
    (h : t.refusal limits s = (some fault, s')) : t.Refuses limits fault := by
  unfold refusal at h
  split at h <;> rename_i hdepth
  · obtain rfl := Option.some.inj (Prod.mk.inj h).1
    exact .tooDeep hdepth
  · dsimp only at h
    split at h
    · obtain rfl := Option.some.inj (Prod.mk.inj h).1
      exact .stepLimit
    · obtain ⟨reason, -, rfl⟩ := Option.map_eq_some_iff.mp (Prod.mk.inj h).1
      exact .cancelled reason

/-- What a step can make of a thread that carries code of some nodes, while no
thread was started. -/
inductive Stride (N : SyntaxNode → Prop) (limits : Limits) (t : Task) : Task → Prop where
  /-- The thread waits, or has its result. -/
  | same : Stride N limits t t
  | refused (n : SyntaxNode) (env : Environment) (hcontrol : t.control = n.control env)
      (fault : Fault) (hfault : t.Refuses limits fault) : Stride N limits t (t.failing fault)
  | entered {u : Task} (n : SyntaxNode) (env : Environment) (hcontrol : t.control = n.control env)
      (h : u.Advances N (.leaveNode (some n.position) t.scope :: t.frames)) : Stride N limits t u
  /-- A call, a hook or a sleep goes on. -/
  | onward {u : Task} (hnode : ∀ n : SyntaxNode, ∀ env, t.control ≠ n.control env)
      (hoing : ∀ o, t.control ≠ .outcome o) (h : u.Advances N t.frames) : Stride N limits t u
  | resumed {u : Task} (o : Outcome) (f : Frame) (rest : List Frame)
      (hcontrol : t.control = .outcome o) (ho : ∀ g, o ≠ .failed g) (hframes : t.frames = f :: rest)
      (hf : f.Within N) (h : u.Advances N rest) : Stride N limits t u
  | left {u : Task} (o : Outcome) (q : Option Position) (outer : Option Environment)
      (rest : List Frame) (hcontrol : t.control = .outcome o) (ho : ∀ g, o ≠ .failed g)
      (hframes : t.frames = .leaveNode q outer :: rest) (hcontrol' : u.control = .outcome o)
      (hframes' : u.frames = rest) : Stride N limits t u
  | passed {u : Task} (f g : Failure) (frame : Frame) (rest : List Frame)
      (hcontrol : t.control = .outcome (.failed f)) (hframes : t.frames = frame :: rest)
      (hcontrol' : u.control = .outcome (.failed g)) (hframes' : u.frames = rest)
      (hfault : g.fault = f.fault) (hposition : g.position = frame.placing f.position) :
      Stride N limits t u

theorem Stride.of_control {limits : Limits} {u : Task} {c : Control} (hcontrol : t.control = c)
    (hnode : ∀ n : SyntaxNode, ∀ env, n.control env ≠ c) (hoing : ∀ o, Control.outcome o ≠ c)
    (h : u.Advances N t.frames) : Stride N limits t u :=
  .onward (fun n env hn => hnode n env (hn.symm.trans hcontrol))
    (fun o ho => hoing o (ho.symm.trans hcontrol)) h

theorem Stride.of_failed {limits : Limits} {u : Task} {f : Failure} (h : Stride N limits t u)
    (hf : t.control = .outcome (.failed f)) :
    u = t ∨ ∃ g frame rest, t.frames = frame :: rest ∧ u.control = .outcome (.failed g) ∧
      u.frames = rest ∧ g.fault = f.fault ∧ g.position = frame.placing f.position := by
  have hsame : ∀ {o : Outcome}, t.control = .outcome o → o = .failed f :=
    fun ho => Control.outcome.inj (ho.symm.trans hf)
  cases h with
  | same => exact .inl rfl
  | refused n env hcontrol _ _ => exact absurd (hcontrol.symm.trans hf) (n.control_ne_outcome env _)
  | entered n env hcontrol _ => exact absurd (hcontrol.symm.trans hf) (n.control_ne_outcome env _)
  | onward _ hgoing _ => exact absurd hf (hgoing _)
  | resumed o f rest hcontrol ho _ _ _ => exact absurd (hsame hcontrol) (ho _)
  | left o q outer rest hcontrol ho _ _ _ => exact absurd (hsame hcontrol) (ho _)
  | passed f' g frame rest hcontrol hframes hcontrol' hframes' hfault hposition =>
      obtain rfl := Outcome.failed.inj (hsame hcontrol)
      exact .inr ⟨g, frame, rest, hframes, hcontrol', hframes', hfault, hposition⟩

/-- A step among closed nodes stays among them, if the innermost frame does and
all bodies are among them. -/
theorem stride_step (hN : SyntaxNode.Closed N) (limits : Limits) (hthreads : s.threads.size = 0)
    (hcode : t.control.Within N)
    (hframe : ∀ f rest, t.frames = f :: rest → (∃ q outer, f = .leaveNode q outer) ∨ f.Within N)
    (hbody : ∀ f id args, t.control = .call (.function f id) args → N (.block f.body)) :
    Stride N limits t (t.step limits s).1 := by
  generalize hr : t.step limits s = r
  cases step_form hr with
  | refused hnode h =>
      cases hcontrol : t.control with
      | expr e env => exact .refused (.expr e) env hcontrol _ (refuses_of_refusal h)
      | stmt st env => exact .refused (.stmt st) env hcontrol _ (refuses_of_refusal h)
      | block b env => exact .refused (.block b) env hcontrol _ (refuses_of_refusal h)
      | program statements env =>
          rw [hcontrol] at hcode
          exact hcode.elim
      | _ =>
          rw [hcontrol] at hnode
          cases hnode
  | @expr s' e env hcontrol _ =>
      rw [hcontrol] at hcode
      exact .entered (.expr e) env hcontrol
        (advances_beginExpr (t.entered (some e.position) env) s' env (hN _ hcode))
  | @stmt s' st env hcontrol _ =>
      rw [hcontrol] at hcode
      exact .entered (.stmt st) env hcontrol
        (advances_beginStmt (t.entered (some st.position) env) s' env (hN _ hcode))
  | @block s' b env hcontrol _ =>
      rw [hcontrol] at hcode
      exact .entered (.block b) env hcontrol (advances_beginBlock (t.entered (some b.position) env)
        env (List.forall_mem_map.mp (hN _ hcode)))
  | program _ _ hcontrol _ =>
      rw [hcontrol] at hcode
      exact hcode.elim
  | call callee args hcontrol =>
      have hcallee : ∀ f id, callee = .function f id → N (.block f.body) := by
        rintro f id rfl
        exact hbody f id args hcontrol
      rcases advances_call hthreads t callee args hcallee with hsame | hu
      · rw [hsame]
        exact .same
      · exact .of_control hcontrol (by rintro (_ | _ | _) _ ⟨⟩) (by rintro _ ⟨⟩) hu
  | hook _ _ _ hcontrol =>
      exact .of_control hcontrol (by rintro (_ | _ | _) _ ⟨⟩) (by rintro _ ⟨⟩)
        (advances_callHook _ _ _ _ _ _)
  | waits | ended => exact .same
  | calledOff _ _ hcontrol =>
      exact .of_control hcontrol (by rintro (_ | _ | _) _ ⟨⟩) (by rintro _ ⟨⟩) (.failing _)
  | awakes _ hcontrol _ =>
      exact .of_control hcontrol (by rintro (_ | _ | _) _ ⟨⟩) (by rintro _ ⟨⟩) (.having _)
  | joinFailed ids _ h => exact absurd h (joined?_ne_error hthreads ids _)
  | joined _ hcontrol _ =>
      exact .of_control hcontrol (by rintro (_ | _ | _) _ ⟨⟩) (by rintro _ ⟨⟩) (.answered _)
  | resumed o f rest hcontrol hframes =>
      -- A failure passes through every frame; anything else the frame goes on with.
      by_cases hfailed : ∃ g, o = .failed g
      · obtain ⟨g, rfl⟩ := hfailed
        obtain ⟨g', hcontrol', hframes', hfault, hposition⟩ :=
          resume_failed_placing { t with frames := rest } s g f
        exact .passed g g' f rest hcontrol hframes hcontrol' hframes' hfault hposition
      · have ho : ∀ g, o ≠ .failed g := fun g h => hfailed ⟨g, h⟩
        rcases hframe f rest hframes with ⟨q, outer, rfl⟩ | hf
        · refine .left o q outer rest hcontrol ho hframes ?_ ?_ <;>
            simp only [resume, exited] <;> split
          · exact absurd rfl (ho _)
          · rfl
          · rfl
          · rfl
        · exact .resumed o f rest hcontrol ho hframes hf
            (advances_resume { t with frames := rest } s ho hf)

end Task

end Scriptlet
