/-
Between two nodes the main thread, alone, does not go on for ever, whatever it
is about to do and whatever waits for the outcome.  Each node that is evaluated
leaves one less to be evaluated, so a limit on their number brings the thread to
its result.
-/
import Scriptlet.Proofs.Halting

namespace Scriptlet

namespace Task

open World

variable {terms : Terms} {M : World → Prop} {n : Nat} {t : Task}

/-- Whether threads that are about to evaluate a node come to their results. -/
def NodesHalt (terms : Terms) (M : World → Prop) (n : Nat) : Prop :=
  ∀ t : Task, t.control.isNode = true → t.Halts terms M n

theorem result?_of_isNode (hnode : t.control.isNode = true) : t.result? = none := by
  rw [result?_eq_none_iff]
  rintro ⟨-, o, hcontrol⟩
  rw [hcontrol] at hnode
  exact nomatch hnode

/-- A node that is refused fails the run, and one that is not is counted. -/
theorem counts_node (hM : Steady terms M) {v : World} (hv : M v)
    (hactor : (terms.feed v).actor = none) (hnode : v.main.control.isNode = true) :
    (∃ fault,
      (v.main.refusal terms.toLimits (v.within (terms.feed v).outside).store).1 = some fault ∧
        (v.step terms).main.HasFailed fault) ∨
    (v.main.refusal terms.toLimits (v.within (terms.feed v).outside).store).1 = none ∧
      (0 < terms.maxSteps → v.store.steps < terms.maxSteps) ∧
      v.store.steps < (v.step terms).store.steps := by
  have hsafe := (hM.safe v hv).within (terms.feed v).outside
  have hstep := hM.step_eq hv
  rw [if_pos hactor] at hstep
  rw [hstep]
  rcases sound_node hsafe.sound.stands terms.toLimits hnode with
    ⟨fault, hfailing, hrefusal, -⟩ | ⟨hrefusal, hroom, hsound⟩
  · refine .inl ⟨fault, hrefusal, ?_⟩
    change ((v.main.step terms.toLimits _).1).HasFailed fault
    have hmain : (v.main.step terms.toLimits (v.within (terms.feed v).outside).store).1 =
        v.main.failing fault := hfailing
    rw [hmain]
    exact hasFailed_failing _ _
  · exact .inr ⟨hrefusal, hroom, hsound.stands.steps⟩

/-- A node that is evaluated leaves one less to be evaluated. -/
theorem nodesHalt_of_less (hM : Driven terms M) (hpos : 0 < terms.maxSteps)
    (hless : ∀ v, M v → v.remaining terms.toLimits < n → v.Halts terms) : NodesHalt terms M n := by
  rintro t hnode v hv hle rfl
  have hgoing := result?_of_isNode hnode
  apply hM.halts_of_turn hv hgoing
  intro u hu hmain hsteps hactor
  rw [← hmain] at hgoing hnode
  have hnext := hM.step u hu hgoing
  rcases counts_node hM.toSteady hu hactor hnode with ⟨fault, -, hfailed⟩ | ⟨-, hroom, hcounted⟩
  · exact .of_hasFailed hM.lively.fair (hM.safe _ hnext).alone hfailed
  · apply hless _ hnext
    have hroom' := hroom hpos
    unfold remaining at hle ⊢
    omega

section

variable (hM : Driven terms M) (hnodes : NodesHalt terms M n)
include hM hnodes

section

variable {k : Nat} (hasks : Asks terms M n k)
include hasks

/-- A call comes to its end if that does to which an instance passes it on. -/
theorem halts_call {v : World} (hsafe : v.Safe terms.toLimits) {callee : Value} {args : List Value}
    (hcontrol : v.main.control = .call callee args) (h : Ready terms M n k v.main.frames)
    (hupdate : ∀ id x, callee = .builtin (.mutexOf .update) → args = [.mutex id, x] →
      Calls terms M n k Few)
    (hinstance : ∀ id f, callee = .instance id → f.Below id →
      (v.main.awaiting .leaveInstance (.call f (.instance id :: args))).Halts terms M n) :
    ((v.main.call v.store callee args).1).Halts terms M n := by
  generalize hr : v.main.call v.store callee args = r
  cases call_form hr with
  | arity | new | notCallable => exact h.ended _
  | function => exact hnodes _ rfl
  | callBack harity =>
      apply halts_callBack hM hasks hsafe hcontrol h
      rintro id rest rfl rfl
      obtain ⟨x, rfl⟩ : ∃ x, rest = [x] := by
        have hlength : ¬ (2 ≠ rest.length + 1) := by
          simpa [Builtin.arity, MutexMethod.arity] using harity
        exact List.length_eq_one_iff.mp (by omega)
      exact hupdate id x rfl rfl
  | answered => exact h.answered _
  | host =>
      have hbelow := hsafe.sound.control
      rw [hcontrol] at hbelow
      exact hbelow.1.elim
  | forwarded _ hfield => exact hinstance _ _ rfl (hsafe.sound.stands.store.field? hfield)

/-- Calls come to their ends: an instance passes its call on to what was made
before it.  The arguments may be such that a mutex is updated if the update's
own call does. -/
theorem calls_of_updates {kind : List Value → Prop}
    (hleading : ∀ id args, kind (.instance id :: args))
    (hupdate : ∀ id x, kind [.mutex id, x] → Calls terms M n k Few) :
    Calls terms M n k kind := by
  intro t callee args h hkind hcontrol
  generalize hrank : rank callee = r
  induction r using Nat.strongRecOn generalizing t callee args with
  | _ r ih =>
      have hgoing : t.result? = none := by rw [result?, hcontrol]
      apply halts_of_step hM hgoing
      rintro v hsafe rfl
      have hstep : (v.main.step terms.toLimits v.store).1 =
          (v.main.call v.store callee args).1 := by
        simp only [step, hcontrol]
      rw [hstep]
      apply halts_call hM hnodes hasks hsafe hcontrol h
      · rintro id x - rfl
        exact hupdate id x hkind
      · rintro id f rfl hf
        have hlt : rank f < r := by
          rw [← hrank]
          exact Nat.lt_succ_of_le (rank_le_of_below hf)
        exact ih (rank f) hlt _ f _ (h.leaving hM rfl) (hleading id args) rfl rfl

/-- A mutex is updated with a call that updates none, so any call comes to its
end. -/
theorem calls_all : Calls terms M n k fun _ => True := by
  have hfew : Calls terms M n k Few := by
    apply calls_of_updates hM hnodes hasks
    · exact fun id args => .inr ⟨id, args, rfl⟩
    · rintro id x (hlength | ⟨_, _, hargs⟩)
      · exact absurd hlength (by simp)
      · exact nomatch hargs
  exact calls_of_updates hM hnodes hasks (fun _ _ => trivial) fun _ _ _ => hfew

end

omit hnodes in
/-- A hook takes one level of the depth, and its call has those that are left
then. -/
theorem asks_of_calls {k : Nat} (hcalls : ∀ j, k = j + 1 → Calls terms M n j fun _ => True) :
    Asks terms M n k := by
  intro t receiver name args h hcontrol
  have hgoing : t.result? = none := by rw [result?, hcontrol]
  apply halts_of_step hM hgoing
  rintro v hsafe rfl
  have hstep : (v.main.step terms.toLimits v.store).1 =
      (v.main.callHook terms.toLimits v.store receiver name args).1 := by
    simp only [step, hcontrol]
  rw [hstep]
  generalize hr : v.main.callHook terms.toLimits v.store receiver name args = r
  cases callHook_form hr with
  | tooDeep | missing => exact h.ended _
  | found hdeep =>
      have hdepth := hsafe.nests.depth_eq
      have hlevel := h.level
      obtain ⟨j, rfl⟩ : ∃ j, k = j + 1 := ⟨k - 1, by omega⟩
      have hcharged : terms.maxDepth ≤ charges (.leaveHook :: v.main.frames) + j := by
        simp [Frame.kind]
        omega
      have hcontinues := continues_leaving hM (f := .leaveHook) rfl h.continues
      exact hcalls j rfl _ _ _ ⟨hcontinues, hcharged⟩ trivial rfl

/-- By induction on the levels of the depth that are left. -/
theorem asks_all (k : Nat) : Asks terms M n k := by
  induction k with
  | zero => exact asks_of_calls hM nofun
  | succ k ih =>
      apply asks_of_calls hM
      intro j hj
      obtain rfl := Nat.succ.inj hj
      exact calls_all hM hnodes ih

section

omit hM hnodes in
/-- All levels of the depth together are enough. -/
theorem Continues.ready {frames : List Frame} (h : Continues terms M n frames) :
    Ready terms M n terms.maxDepth frames := ⟨h, Nat.le_add_left _ _⟩

variable (h : Ready terms M n terms.maxDepth t.frames)
include h

theorem halts_hook (receiver : Value) (name : String) (args : List Value) :
    (t.doing (.hook receiver name args)).Halts terms M n :=
  asks_all hM hnodes _ _ receiver name args h rfl

theorem halts_applying (s : Store) (callee : Value) (args : List Value) (site : Position) :
    (t.applying s callee args site).Halts terms M n := by
  have hasks := asks_all hM hnodes terms.maxDepth
  exact calls_all hM hnodes hasks _ callee args (h.leaving hM (f := .leaveCall) rfl) trivial rfl

theorem halts_gather (s : Store) (purpose : Purpose) (env : Environment) (done : List Value)
    (rest : List Expr) : ((t.gather s purpose env done rest).1).Halts terms M n := by
  cases rest with
  | cons e rest => exact hnodes _ rfl
  | nil =>
      cases purpose with
      | list => exact h.answered _
      | call callee site => exact halts_applying hM hnodes h _ _ _ _
      | method member receiver site =>
          simp only [gather, gathered]
          split <;> exact halts_applying hM hnodes h _ _ _ _

omit hM in
theorem halts_chooseFrom (env : Environment) (otherwise : Option Block) (branches : List Branch) :
    (t.chooseFrom env otherwise branches).Halts terms M n := by
  cases branches with
  | nil =>
      cases otherwise with
      | none => exact h.ended _
      | some body => exact hnodes _ rfl
  | cons branch rest =>
      cases branch
      exact hnodes _ rfl

theorem halts_applyUnary (s : Store) (op : UnaryOp) (v : Value) :
    ((t.applyUnary s op v).1).Halts terms M n := by
  unfold applyUnary
  split
  · exact h.ended _
  · exact halts_hook hM hnodes h _ _ _

theorem halts_applyBinary (s : Store) (op : BinaryOp) (left right : Value) :
    ((t.applyBinary s op left right).1).Halts terms M n := by
  have hasks := asks_all hM hnodes terms.maxDepth
  unfold applyBinary
  split
  · exact halts_askEqual hM hasks h _ _ _
  · exact halts_askEqual hM hasks (t := t.pushed .negated) (h.ending hM rfl) _ _ _
  · split
    · exact calls_all hM hnodes hasks _ _ _ h trivial rfl
    · split <;> exact h.ended _

theorem halts_useMember (s : Store) (object : Value) (field : Ident) (env : Environment)
    (args : Option (List Expr)) : ((t.useMember s object field env args).1).Halts terms M n := by
  cases args with
  | none => exact h.answered _
  | some args =>
      simp only [useMember]
      split
      · exact h.ended _
      · exact halts_gather hM hnodes h _ _ _ _ _

theorem halts_askNext (iterator : Value) (item : String) (body : Block) (env : Environment) :
    (t.askNext iterator item body env).Halts terms M n := by
  have hpushed : Ready terms M n terms.maxDepth (.forNext iterator item body env :: t.frames) := by
    apply h.behind hM rfl
    intro u s v hu
    simp only [resumeValue]
    split
    · exact hu.ended _
    · exact hnodes _ rfl
    · exact hu.ended _
  exact halts_hook hM hnodes (t := t.pushed (.forNext iterator item body env)) hpushed _ _ _

omit hM in
/-- What comes after the truth of something was asked for. -/
theorem halts_branchTruth (s : Store) (v : Value) (body : Block) (rest : List Branch)
    (otherwise : Option Block) (env : Environment) :
    ((t.resumeValue s v (.branchTruth body rest otherwise env)).1).Halts terms M n := by
  simp only [resumeValue]
  split
  · exact hnodes _ rfl
  · exact halts_chooseFrom hnodes h _ _ _

omit hM in
theorem halts_whileTruth (s : Store) (v : Value) (condition : Expr) (body : Block)
    (env : Environment) :
    ((t.resumeValue s v (.whileTruth condition body env)).1).Halts terms M n := by
  simp only [resumeValue]
  split
  · exact hnodes _ rfl
  · exact h.ended _

omit hM in
theorem halts_firstTruth (s : Store) (v : Value) (op : BinaryOp) (left : Value) (right : Expr)
    (env : Environment) :
    ((t.resumeValue s v (.firstTruth op left right env)).1).Halts terms M n := by
  simp only [resumeValue]
  split
  · exact hnodes _ rfl
  · exact hnodes _ rfl
  · exact h.ended _

/-- What a value leads to halts, whatever frame gets it. -/
theorem halts_value {s : Store} {v : Value} {f : Frame} {r : Task × Store}
    (hform : ValueForm t s v f r) : (r.1).Halts terms M n := by
  have hasks := asks_all hM hnodes terms.maxDepth
  cases hform with
  | passes | null | bool | fails | binding | giveBack | settled | updating => exact h.ended _
  | text | found => exact h.answered _
  | next | storeValue | storeObject | branch | whileTruth | whileBody | forNext | leftOperand
  | secondTerm | indexObject => exact hnodes _ rfl
  | storeSubscript object value =>
      exact halts_hook hM hnodes (t := t.pushed .stored) (h.ending hM rfl) _ _ _
  | branchCondition body rest otherwise env =>
      apply halts_askTruth hM hasks
      apply h.behind hM rfl
      exact fun u s v hu => halts_branchTruth hnodes hu s v body rest otherwise env
  | choose => exact halts_chooseFrom hnodes h _ _ _
  | whileCondition condition body env =>
      apply halts_askTruth hM hasks
      apply h.behind hM rfl
      exact fun u s v hu => halts_whileTruth hnodes hu s v condition body env
  | forSource item body env =>
      have hpushed : Ready terms M n terms.maxDepth (.forIterator item body env :: t.frames) := by
        apply h.behind hM rfl
        exact fun u s v hu => halts_askNext hM hnodes hu v item body env
      exact halts_hook hM hnodes (t := t.pushed (.forIterator item body env)) hpushed _ _ _
  | forIterator | forBody => exact halts_askNext hM hnodes h _ _ _ _
  | items | callee => exact halts_gather hM hnodes h _ _ _ _ _
  | operand => exact halts_applyUnary hM hnodes h _ _ _
  | rightOperand => exact halts_applyBinary hM hnodes h _ _ _ _
  | firstTerm op right env =>
      apply halts_askTruth hM hasks
      apply h.behind hM rfl
      exact fun u s x hu => halts_firstTruth hnodes hu s x op v right env
  | receiver => exact halts_useMember hM hnodes h _ _ _ _ _
  | indexSubscript => exact halts_hook hM hnodes h _ _ _
  | printing => exact halts_printing hM hasks h _ _ _
  | listText => exact halts_listText hM hasks h _ _ _
  | pairs => exact halts_comparePairs hM hasks h _ _
  | seek => exact halts_seek hM hasks h _ _ _ _ _
  | assertLeft left right wanted =>
      have hpushed : Ready terms M n terms.maxDepth (.assertLeft right wanted :: t.frames) := by
        apply h.behind hM rfl
        exact fun u s v hu => halts_assertLeft hM hasks hu s v right wanted
      exact halts_askText hM hasks (t := t.pushed (.assertLeft right wanted)) hpushed left
  | assertRight left right wanted =>
      exact halts_askText hM hasks (h.ending hM (f := .assertRight left wanted) rfl) right

end

/-- Whatever frame waits for an outcome, those under it are continued in the end. -/
theorem continues_cons {rest : List Frame} (hrest : Continues terms M n rest) (f : Frame) :
    Continues terms M n (f :: rest) := by
  cases hleaving : f.isLeaving with
  | true => exact continues_leaving hM hleaving hrest
  | false =>
      apply continues_of_resume hM
      rintro t s o rfl
      generalize hr : t.resume s o f = r
      cases resume_form hr with
      | exited | leftHook | returned | leftFunction | leftInstance => exact nomatch hleaving
      | programReturned | programFailed | programEnds | leftWhile | leftFor | unlocks | skips =>
          exact hrest.ready.ended _
      | programNext | againWhile => exact hnodes _ rfl
      | value v _ hform => exact halts_value hM hnodes hrest.ready hform
      | againFor => exact halts_askNext hM hnodes hrest.ready _ _ _ _

/-- By induction on the frames, whatever waits for an outcome. -/
theorem continues_all (frames : List Frame) : Continues terms M n frames := by
  induction frames with
  | nil => exact continues_nil
  | cons f rest ih => exact continues_cons hM hnodes ih f

/-- Whatever a thread is about to do, it comes to its result. -/
theorem halts_all (t : Task) : t.Halts terms M n := by
  have hready := (continues_all hM hnodes t.frames).ready
  have hasks := asks_all hM hnodes terms.maxDepth
  cases hcontrol : t.control with
  | expr e env | stmt s env | block b env | program statements env =>
      apply hnodes
      rw [hcontrol]
      rfl
  | call callee args => exact calls_all hM hnodes hasks t callee args hready trivial hcontrol
  | hook receiver name args => exact hasks t receiver name args hready hcontrol
  | asleep time => exact halts_asleep hM hready.continues hcontrol
  | joining ids => exact halts_joining hM hready.continues hcontrol
  | outcome o => exact hready.continues t o rfl hcontrol

end

end Task

/-- In a run in which no thread is spawned, and no mutex used inside an update
of it, a limit on the nodes lets the main thread come to its result: by
induction on the nodes that may still be evaluated. -/
theorem Driven.halts {terms : Terms} {M : World → Prop} (hM : Driven terms M)
    (hpos : 0 < terms.maxSteps) {v : World} (hv : M v) : v.Halts terms := by
  generalize hn : v.remaining terms.toLimits = n
  induction n using Nat.strongRecOn generalizing v with
  | _ n ih =>
      have hnodes : Task.NodesHalt terms M n := by
        apply Task.nodesHalt_of_less hM hpos
        exact fun u hu hlt => ih _ hlt hu rfl
      exact Task.halts_all hM hnodes v.main v hv (Nat.le_of_eq hn) rfl

end Scriptlet
