/-
What the steps of a thread bind: each leaves the thread with names to bind only
where it might have bound them before, or in a frame that is new.
-/
import Scriptlet.Proofs.Binding
import Scriptlet.Proofs.StepForms

namespace Scriptlet

namespace Task

variable {may : Place → Prop} {base : List Frame} {before : Store} {t : Task} {s : Store}

theorem standing_refusal (limits : Limits) (t : Task) (s : Store) :
    (t.refusal limits s).2.standing = s.standing := by
  unfold refusal
  split
  · rfl
  · dsimp only
    split <;> rfl

theorem stacked_entered (hf : Stacked may base t.frames) (position : Option Position)
    (env : Environment) : Stacked may base (t.entered position env).frames :=
  hf.push .nowhere

theorem leads_gathered (hf : Stacked may base t.frames) (hs : before.KeepsBindings may s)
    (values : List Value) (purpose : Purpose) :
    Leads may base before (t.gathered s values purpose) := by
  cases purpose with
  | list => exact .answered (a := s.giveList _) hf hs rfl
  | call callee site => exact ⟨binds_applying hf _ _ _ _, hs⟩
  | method member receiver site =>
      simp only [gathered]
      split <;> exact ⟨binds_applying hf _ _ _ _, hs⟩

theorem leads_gather (hf : Stacked may base t.frames) (hs : before.KeepsBindings may s)
    (purpose : Purpose) (env : Environment) (done : List Value) (rest : List Expr) :
    Leads may base before (t.gather s purpose env done rest) := by
  cases rest with
  | nil => exact leads_gathered hf hs _ _
  | cons e rest => exact ⟨.awaiting hf .nowhere .nowhere, hs⟩

theorem binds_chooseFrom (hf : Stacked may base t.frames) {env : Environment}
    (henv : may env.innermost) (otherwise : Option Block) (branches : List Branch) :
    (t.chooseFrom env otherwise branches).Binds may base := by
  cases branches with
  | nil =>
      cases otherwise with
      | none => exact .ended hf
      | some body => exact .doing hf (.scope henv)
  | cons branch rest =>
      cases branch
      exact .awaiting hf (.scope henv) .nowhere

theorem leads_binding (hf : Stacked may base t.frames) (hs : before.KeepsBindings may s)
    {env : Environment} (henv : may env.innermost) (name : String) (v : Value) :
    Leads may base before (t.binding s env name v) :=
  ⟨.ended hf, hs.bind henv name v⟩

/-- An expression binds nothing by itself. -/
theorem leads_beginExpr (hf : Stacked may base t.frames) (hs : before.KeepsBindings may s)
    (env : Environment) (e : Expr) : Leads may base before (t.beginExpr s env e) := by
  have hawait : ∀ (f : Frame) (c : Control), Within may f.binds? → Within may c.binds? →
      Leads may base before (t.awaiting f c, s) :=
    fun _ _ hframe hc => ⟨.awaiting hf hframe hc, hs⟩
  cases e with
  | name i =>
      simp only [beginExpr]
      split <;> exact ⟨.ended hf, hs⟩
  | int p lexeme n => exact .answered (a := s.giveInt n) hf hs rfl
  | float p lexeme x => exact .answered (a := s.giveFloat x) hf hs rfl
  | str p text => exact .answered (a := s.giveText text) hf hs rfl
  | bool p b => exact ⟨.ended hf, hs⟩
  | null p => exact ⟨.ended hf, hs⟩
  | list p items => exact leads_gather hf hs _ _ _ _
  | unary p op e => exact hawait _ _ .nowhere .nowhere
  | binary p op left right => cases op <;> exact hawait _ _ .nowhere .nowhere
  | call p callee args => exact hawait _ _ .nowhere .nowhere
  | member p object field => exact hawait _ _ .nowhere .nowhere
  | method p object field args => exact hawait _ _ .nowhere .nowhere
  | index p object subscript => exact hawait _ _ .nowhere .nowhere
  | lambda p params body => exact ⟨.ended hf, hs.of_settled rfl⟩

/-- A statement binds names in its own scope only. -/
theorem leads_beginStmt (hf : Stacked may base t.frames) (hs : before.KeepsBindings may s)
    {env : Environment} (henv : may env.innermost) (stmt : Stmt) :
    Leads may base before (t.beginStmt s env stmt) := by
  cases stmt with
  | expr p q e => exact ⟨.doing hf .nowhere, hs⟩
  | assign p target e => exact ⟨.awaiting hf (.scope henv) .nowhere, hs⟩
  | store p q object subscript e => exact ⟨.awaiting hf .nowhere .nowhere, hs⟩
  | choose p branches otherwise => exact ⟨binds_chooseFrom hf henv _ _, hs⟩
  | repeatWhile p condition body => exact ⟨.awaiting hf (.scope henv) .nowhere, hs⟩
  | forEach p item source body => exact ⟨.awaiting hf (.scope henv) .nowhere, hs⟩
  | declare f => exact leads_binding hf hs.nextFresh henv _ _
  | classDef p ident fields methods => exact leads_binding hf hs.nextFresh henv _ _
  | giveBack p value =>
      cases value with
      | none => exact ⟨.ended hf, hs⟩
      | some e => exact ⟨.awaiting hf .nowhere .nowhere, hs⟩
  | leave p => exact ⟨.ended hf, hs⟩
  | skip p => exact ⟨.ended hf, hs⟩

theorem binds_beginBlock (hf : Stacked may base t.frames) {env : Environment}
    (henv : may env.innermost) (statements : List Stmt) :
    (t.beginBlock env statements).Binds may base := by
  cases statements with
  | nil => exact .ended hf
  | cons first rest => exact .awaiting hf (.scope henv) (.scope henv)

theorem binds_beginProgram (hf : Stacked may base t.frames) {env : Environment}
    (henv : may env.innermost) (statements : List Stmt) :
    (t.beginProgram env statements).Binds may base := by
  cases statements with
  | nil => exact .ended hf
  | cons first rest => exact .awaiting hf (.scope henv) (.scope henv)

theorem leads_applyUnary (hf : Stacked may base t.frames) (hs : before.KeepsBindings may s)
    (op : UnaryOp) (v : Value) : Leads may base before (t.applyUnary s op v) := by
  have hmember := Store.settled_member s v op.hook
  unfold applyUnary
  split <;> rename_i heq <;> rw [heq] at hmember
  · exact ⟨.ended hf, hs.of_settled hmember⟩
  · exact ⟨.doing hf .nowhere, hs.of_settled hmember⟩

theorem leads_applyBinary (hf : Stacked may base t.frames) (hs : before.KeepsBindings may s)
    (op : BinaryOp) (left right : Value) :
    Leads may base before (t.applyBinary s op left right) := by
  unfold applyBinary
  split
  · exact ⟨binds_askEqual hf _ _ _, hs⟩
  · exact ⟨binds_askEqual (hf.push .nowhere) _ _ _, hs⟩
  · have hmember := Store.settled_member s left op.number.hook
    split <;> rename_i heq <;> rw [heq] at hmember
    · exact ⟨.doing hf .nowhere, hs.of_settled hmember⟩
    · split <;> exact ⟨.ended hf, hs.of_settled hmember⟩

theorem leads_useMember (hf : Stacked may base t.frames) (hs : before.KeepsBindings may s)
    (object : Value) (field : Ident) (env : Environment) (args : Option (List Expr)) :
    Leads may base before (t.useMember s object field env args) := by
  have hmember := Store.settled_member s object field.name
  cases args with
  | none => exact .answered hf hs hmember
  | some args =>
      simp only [useMember]
      split <;> rename_i heq <;> rw [heq] at hmember
      · exact ⟨.ended hf, hs.of_settled hmember⟩
      · exact leads_gather hf (hs.of_settled hmember) _ _ _ _

theorem binds_askNext (hf : Stacked may base t.frames) {env : Environment}
    (henv : may env.innermost) (iterator : Value) (item : String) (body : Block) :
    (t.askNext iterator item body env).Binds may base :=
  .awaiting hf (.scope henv) .nowhere

theorem keepsBindings_located (hs : before.KeepsBindings may s) (f : Failure) (p : Position) :
    before.KeepsBindings may (located s f p).2 := by
  unfold located
  split
  · exact hs
  · dsimp only
    split
    · exact hs.endThread _ _
    · exact hs

theorem leads_exited (hf : Stacked may base t.frames) (hs : before.KeepsBindings may s)
    (position : Option Position) (outer : Option Environment) (o : Outcome) :
    Leads may base before (t.exited s position outer o) := by
  unfold exited
  dsimp only
  split
  · exact ⟨⟨hf, .nowhere⟩, keepsBindings_located hs _ _⟩
  · exact ⟨⟨hf, .nowhere⟩, hs⟩

theorem binds_returned (hf : Stacked may base t.frames) (o : Outcome) :
    (t.returned o).Binds may base := by
  cases o <;> exact ⟨hf, .nowhere⟩

/-- With a value, a frame binds names in its own scope only. -/
theorem leads_value {v : Value} {f : Frame} {r : Task × Store} (h : ValueForm t s v f r)
    (hf : Stacked may base t.frames) (hs : before.KeepsBindings may s)
    (hframe : Within may f.binds?) : Leads may base before r := by
  cases h with
  | passes | null | bool | fails | giveBack | settled => exact ⟨.ended hf, hs⟩
  | text | found => exact .answered hf hs rfl
  | binding name env => exact leads_binding hf hs (hframe env rfl) name v
  | next first rest env =>
      have henv := hframe env rfl
      exact ⟨.awaiting hf (.scope henv) (.scope henv), hs⟩
  | storeValue | storeObject | storeSubscript | leftOperand | indexObject =>
      exact ⟨.awaiting hf .nowhere .nowhere, hs⟩
  | branchCondition body rest otherwise env =>
      exact ⟨binds_askTruth (hf.push (f := .branchTruth body rest otherwise env) hframe) v, hs⟩
  | branch body rest otherwise env => exact ⟨.doing hf (.scope (hframe env rfl)), hs⟩
  | choose body rest otherwise env => exact ⟨binds_chooseFrom hf (hframe env rfl) _ _, hs⟩
  | whileCondition condition body env =>
      exact ⟨binds_askTruth (hf.push (f := .whileTruth condition body env) hframe) v, hs⟩
  | whileTruth => exact ⟨.awaiting hf hframe hframe, hs⟩
  | whileBody | forSource => exact ⟨.awaiting hf hframe .nowhere, hs⟩
  | forIterator _ _ env | forBody _ _ _ env => exact ⟨binds_askNext hf (hframe env rfl) _ _ _, hs⟩
  | forNext iterator item body env =>
      have henv := hframe env rfl
      exact ⟨.awaiting hf hframe (.scope henv), hs.bind henv _ _⟩
  | items | callee => exact leads_gather hf hs _ _ _ _
  | operand op => exact leads_applyUnary hf hs op v
  | rightOperand op left => exact leads_applyBinary hf hs op left v
  | firstTerm => exact ⟨binds_askTruth (hf.push .nowhere) v, hs⟩
  | secondTerm | indexSubscript => exact ⟨.doing hf .nowhere, hs⟩
  | receiver => exact leads_useMember hf hs _ _ _ _
  | printing => exact leads_printing hf hs _ _
  | listText => exact leads_listText hf hs _ _
  | pairs => exact ⟨binds_comparePairs hf _ _, hs⟩
  | seek => exact ⟨binds_seek hf _ _ _ _ _, hs⟩
  | updating => exact ⟨.ended hf, hs.of_settled rfl⟩
  | assertLeft | assertRight => exact ⟨binds_askText (hf.push .nowhere) _, hs⟩

/-- A frame binds names in its own scope only, whatever the outcome it gets. -/
theorem leads_resume (hf : Stacked may base t.frames) (hs : before.KeepsBindings may s)
    (o : Outcome) (f : Frame) (hframe : Within may f.binds?) :
    Leads may base before (t.resume s o f) := by
  generalize hr : t.resume s o f = r
  cases resume_form hr with
  | exited => exact leads_exited hf hs _ _ _
  | leftHook => exact ⟨⟨hf, .nowhere⟩, hs⟩
  | returned => exact ⟨binds_returned hf _, hs⟩
  | leftFunction | leftInstance | programReturned | programFailed | programEnds | leftWhile
  | leftFor | skips => exact ⟨.ended hf, hs⟩
  | programNext => exact ⟨.awaiting hf hframe hframe, hs⟩
  | value _ _ h => exact leads_value h hf hs hframe
  | againWhile => exact ⟨.awaiting hf hframe .nowhere, hs⟩
  | againFor _ _ _ env => exact ⟨binds_askNext hf (hframe env rfl) _ _ _, hs⟩
  | unlocks => exact ⟨.ended hf, hs.of_settled rfl⟩

/-- No step of a thread binds a name but where the thread may, or in a frame
that is new.  The outcome that the frames in `base` wait for is not given to
them. -/
theorem leads_step (ht : t.Binds may base) (hs : before.KeepsBindings may s)
    (hnew : ∀ i, before.scopes.frames.size ≤ i → may (.frame i))
    (hgoing : ∀ o, t.control = .outcome o → t.frames ≠ base) (limits : Limits) :
    Leads may base before (t.step limits s) := by
  have hf := ht.frames
  have hbegun : ∀ {fault : Option Fault} {s' : Store}, t.refusal limits s = (fault, s') →
      before.KeepsBindings may s' := by
    intro fault s' heq
    have hsame := standing_refusal limits t s
    rw [heq] at hsame
    exact hs.of_settled (Store.settled_of_standing hsame)
  have henv : ∀ env, t.control.binds? = some env → may env.innermost := ht.control
  generalize hr : t.step limits s = r
  cases step_form hr with
  | refused _ h => exact ⟨.ended hf, hbegun h⟩
  | expr _ _ _ h => exact leads_beginExpr (stacked_entered hf _ _) (hbegun h) _ _
  | stmt stmt env hcontrol h =>
      have hmay := henv env (by rw [hcontrol]; rfl)
      exact leads_beginStmt (stacked_entered hf _ _) (hbegun h) hmay stmt
  | block b env hcontrol h =>
      have hmay := henv env (by rw [hcontrol]; rfl)
      exact ⟨binds_beginBlock (stacked_entered hf _ _) hmay _, hbegun h⟩
  | program statements env hcontrol h =>
      have hmay := henv env (by rw [hcontrol]; rfl)
      exact ⟨binds_beginProgram (stacked_entered hf _ _) hmay _, hbegun h⟩
  | call => exact leads_call ht hs hnew _ _
  | hook => exact leads_callHook hf hs _ _ _ _
  | waits | ended => exact ⟨ht, hs⟩
  | calledOff | awakes | joinFailed => exact ⟨.ended hf, hs⟩
  | joined => exact .answered hf hs rfl
  | resumed o f rest hcontrol hframes =>
      obtain ⟨top, hstack, htop⟩ := hf
      cases top with
      | nil => exact absurd hstack (hgoing o hcontrol)
      | cons g top =>
          obtain ⟨rfl, rfl⟩ := List.cons.inj (hframes.symm.trans hstack)
          obtain ⟨hframe, htop⟩ := List.forall_mem_cons.mp htop
          exact leads_resume ⟨top, rfl, htop⟩ hs o f hframe

/-- No step forgets a thread, or has one started again. -/
theorem keepsBindings_step (limits : Limits) (t : Task) (s : Store) :
    s.KeepsBindings (fun _ => True) (t.step limits s).2 := by
  by_cases hended : ∃ o, t.control = .outcome o ∧ t.frames = []
  · obtain ⟨o, hcontrol, hframes⟩ := hended
    simp only [step, hcontrol, hframes]
    exact .refl _ s
  · have ht : t.Binds (fun _ => True) [] :=
      ⟨⟨t.frames, (List.append_nil _).symm, fun _ _ _ _ => trivial⟩, fun _ _ => trivial⟩
    have hgoing : ∀ o, t.control = .outcome o → t.frames ≠ [] :=
      fun o hcontrol hframes => hended ⟨o, hcontrol, hframes⟩
    exact (leads_step ht (.refl _ s) (fun _ _ => trivial) hgoing limits).store

end Task

end Scriptlet
