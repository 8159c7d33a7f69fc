/-
The steps of a thread in another guise.  Whatever a guise leaves as it is for
the limits, for reports and for bodies of functions, a step of a thread and the
guise may be exchanged.
-/
import Scriptlet.Proofs.CallDepth
import Scriptlet.Proofs.GuiseCalls

namespace Scriptlet

namespace Task

section

variable {g : Guise} (hnowhere : g.place .nowhere = .nowhere) (below : Footing) (extra : Nat)
  (t : Task) (s : Store)

include hnowhere

theorem callHook_recast (limits : Limits) (receiver : Value) (name : String) (args : List Value)
    (hdepth : below.depth = 0 ∨ t.depth + below.depth + 1 ≤ limits.maxDepth)
    (hknows : g.Knows s.outside.host receiver) :
    (t.recast g below).callHook limits (s.recast (g.veil extra)) (receiver.recast g) name
      (args.map (Value.recast g)) =
      g.moved below extra (t.callHook limits s receiver name args) := by
  have hdeeper : limits.maxDepth < (t.recast g below).depth + 1 ↔
      limits.maxDepth < t.depth + 1 := by
    simp only [recast]
    omega
  have hmember : (s.recast (g.veil extra)).member (receiver.recast g) name =
      Answer.recast (g.veil extra) (s.member receiver name) :=
    Store.member_recast (g.veil extra) s receiver name hknows
  simp only [callHook, hdeeper, hmember]
  split
  · exact congrArg (·, s.recast (g.veil extra)) (failing_recast hnowhere below t .tooDeep)
  · cases s.member receiver name with
    | mk answer s' =>
        cases answer with
        | ok f =>
            simp only [Answer.recast, Guise.moved, recast, Control.recast,
              Nat.add_right_comm t.depth]
            rfl
        | error fault =>
            exact congrArg (·, s'.recast (g.veil extra)) (failing_recast hnowhere below t _)

omit hnowhere in
/-- Whether a node is refused rests on how deep it is and on the steps counted. -/
theorem refusal_recast (limits : Limits)
    (hroom : below.depth = 0 ∧ extra = 0 ∨ t.depth + below.depth + 1 ≤ limits.maxDepth ∧
      (0 < limits.maxSteps → s.steps + extra + 1 ≤ limits.maxSteps)) :
    (t.recast g below).refusal limits (s.recast (g.veil extra)) =
      ((t.refusal limits s).1.map (Fault.recast g),
        (t.refusal limits s).2.recast (g.veil extra)) := by
  have hdeeper : limits.maxDepth < (t.recast g below).depth + 1 ↔
      limits.maxDepth < t.depth + 1 := by
    simp only [recast]
    omega
  have hsteps : (s.recast (g.veil extra)).steps + 1 = s.steps + 1 + extra :=
    Nat.add_right_comm s.steps extra 1
  have hmore : (0 < limits.maxSteps && limits.maxSteps < (s.recast (g.veil extra)).steps + 1) =
      (0 < limits.maxSteps && limits.maxSteps < s.steps + 1) := by
    rw [Bool.eq_iff_iff]
    simp only [Bool.and_eq_true, decide_eq_true_eq, hsteps]
    omega
  have hcounted :
      ({ s.recast (g.veil extra) with steps := (s.recast (g.veil extra)).steps + 1 } : Store) =
      Store.recast (g.veil extra) { s with steps := s.steps + 1 } := by
    rw [hsteps]
    rfl
  simp only [refusal, hdeeper, hmore, hcounted]
  split
  · rfl
  · split
    · rfl
    · have hcalledOff : (s.recast (g.veil extra)).outside.calledOff = s.outside.calledOff := rfl
      rw [hcalledOff]
      cases s.outside.calledOff <;> rfl

theorem gather_recast (purpose : Purpose) (env : Environment) (done : List Value)
    (rest : List Expr) :
    (t.recast g below).gather (s.recast (g.veil extra)) (purpose.recast g) env
      (done.map (Value.recast g)) (rest.map (Expr.recast g)) =
      g.moved below extra (t.gather s purpose env done rest) := by
  cases rest with
  | cons e rest => rfl
  | nil =>
      simp only [List.map_nil, gather, ← List.map_reverse]
      cases purpose with
      | list =>
          have hlist := Store.giveList_recast (g.veil extra) s done.reverse.toArray
          rw [List.map_toArray] at hlist
          exact (congrArg (t.recast g below).answered hlist).trans
            (answered_recast hnowhere below extra t (s.giveList done.reverse.toArray))
      | call callee site =>
          exact congrArg (·, s.recast (g.veil extra))
            (applying_recast g below extra t s callee done.reverse site)
      | method member receiver site =>
          cases receiver with
          | module m =>
              exact congrArg (·, s.recast (g.veil extra))
                (applying_recast g below extra t s member done.reverse site)
          | _ =>
              exact congrArg (·, s.recast (g.veil extra))
                (applying_recast g below extra t s member (_ :: done.reverse) site)

theorem beginExpr_recast (env : Environment) (e : Expr) :
    (t.recast g below).beginExpr (s.recast (g.veil extra)) env (e.recast g) =
      g.moved below extra (t.beginExpr s env e) := by
  cases e with
  | name i =>
      have hget : (s.recast (g.veil extra)).scopes.get? (i.recast g).name env =
          (s.scopes.get? i.name env).map (Value.recast g) :=
        Scopes.get?_map (Value.recast g) s.scopes i.name env
      simp only [Expr.recast, beginExpr, hget]
      cases s.scopes.get? i.name env with
      | none =>
          exact congrArg (·, s.recast (g.veil extra))
            (failing_recast hnowhere below t (.undefinedName i.name))
      | some x => rfl
  | int p digits n => exact answered_recast hnowhere below extra t (s.giveInt n)
  | float p digits x => exact answered_recast hnowhere below extra t (s.giveFloat x)
  | str p text => exact answered_recast hnowhere below extra t (s.giveText text)
  | list p items =>
      simp only [Expr.recast, exprsRecast_eq_map]
      exact gather_recast hnowhere below extra t s .list env [] items
  | binary p op left right => cases op <;> rfl
  | call p callee args =>
      simp only [Expr.recast, exprsRecast_eq_map]
      rfl
  | method p object field args =>
      simp only [Expr.recast, exprsRecast_eq_map]
      rfl
  | lambda p params body =>
      have hparams : (params.map (Param.recast g)).map (fun p => p.name.name) =
          params.map fun p => p.name.name := List.map_map
      simp only [Expr.recast, beginExpr, hparams]
      rfl
  | _ => rfl

omit hnowhere in
theorem binding_recast (env : Environment) (name : String) (x : Value) :
    (t.recast g below).binding (s.recast (g.veil extra)) env name (x.recast g) =
      g.moved below extra (t.binding s env name x) := by
  have hset := Scopes.set_map (Value.recast g) s.scopes env name x
  simp only [binding, Guise.moved, Store.recast, Guise.veil, ← hset]
  rfl

omit hnowhere in
theorem beginStmt_recast (env : Environment) (stmt : Stmt) :
    (t.recast g below).beginStmt (s.recast (g.veil extra)) env (stmt.recast g) =
      g.moved below extra (t.beginStmt s env stmt) := by
  cases stmt with
  | choose p branches otherwise =>
      have hchoose := chooseFrom_recast g below t env otherwise branches
      cases otherwise <;> simp only [Stmt.recast, branchesRecast_eq_map] <;>
        exact congrArg (·, s.recast (g.veil extra)) hchoose
  | declare f =>
      have hname : (f.recast g).ident.name = f.ident.name := by
        cases f
        rfl
      simp only [Stmt.recast, beginStmt, Scopes.capture, newFunction_recast, hname, binding_recast]
  | classDef p ident fields methods =>
      have hfields : (fields.map (Param.recast g)).map (fun p => p.name.name) =
          fields.map fun p => p.name.name := List.map_map
      simp only [Stmt.recast, beginStmt, hfields, funcsRecast_eq_map]
      exact binding_recast below extra t (s.newClass ⟨ident.name, _, methods⟩).2 env ident.name
        (s.newClass ⟨ident.name, _, methods⟩).1
  | giveBack p e => cases e <;> rfl
  | _ => rfl

end

section

variable {g : Guise} (hnowhere : g.place .nowhere = .nowhere) (below : Footing) (extra : Nat)
  (t : Task) (s : Store)

include hnowhere

theorem applyUnary_recast (op : UnaryOp) (x : Value) (hknows : g.Knows s.outside.host x) :
    (t.recast g below).applyUnary (s.recast (g.veil extra)) op (x.recast g) =
      g.moved below extra (t.applyUnary s op x) := by
  have hmember : (s.recast (g.veil extra)).member (x.recast g) op.hook =
      Answer.recast (g.veil extra) (s.member x op.hook) :=
    Store.member_recast (g.veil extra) s x op.hook hknows
  simp only [applyUnary, hmember]
  cases s.member x op.hook with
  | mk answer s' =>
      cases answer with
      | ok f => rfl
      | error fault =>
          have hname : (s'.recast (g.veil extra)).typeName (x.recast g) = s'.typeName x :=
            Store.typeName_recast (g.veil extra) s' x
          simp only [Answer.recast, hname]
          exact congrArg (·, s'.recast (g.veil extra))
            (failing_recast hnowhere below t (.unaryOperand op.text (s'.typeName x)))

omit hnowhere in
/-- A guise leaves the class of a cause but for that of leaving no loop. -/
theorem kind_recast_unresolved (fault : Fault) :
    (fault.recast g).kind = .unresolvedName ↔ fault.kind = .unresolvedName := by
  cases fault with
  | strayBreak callee | strayContinue callee =>
      simp only [Fault.recast]
      split <;> simp [Fault.kind]
  | _ => exact .rfl

theorem applyBinary_recast (op : BinaryOp) (left right : Value)
    (hknows : g.Knows s.outside.host left) :
    (t.recast g below).applyBinary (s.recast (g.veil extra)) op (left.recast g) (right.recast g) =
      g.moved below extra (t.applyBinary s op left right) := by
  have hnames : ∀ (s : Store) (x : Value),
      (s.recast (g.veil extra)).typeName (x.recast g) = s.typeName x :=
    Store.typeName_recast (g.veil extra)
  have hmember : (s.recast (g.veil extra)).member (left.recast g) op.number.hook =
      Answer.recast (g.veil extra) (s.member left op.number.hook) :=
    Store.member_recast (g.veil extra) s left op.number.hook hknows
  cases op with
  | equal =>
      exact congrArg (·, s.recast (g.veil extra)) (askEqual_recast g below extra t s left right)
  | notEqual =>
      exact congrArg (·, s.recast (g.veil extra))
        (askEqual_recast g below extra (t.pushed .negated) s left right)
  | _ =>
      simp only [applyBinary, hmember]
      cases s.member left _ with
      | mk answer s' =>
          cases answer with
          | ok f => rfl
          | error fault =>
              simp only [Answer.recast, kind_recast_unresolved, hnames]
              split
              · exact congrArg (·, s'.recast (g.veil extra)) (failing_recast hnowhere below t
                  (.operands _ (s'.typeName left) (s'.typeName right)))
              · exact congrArg (·, s'.recast (g.veil extra)) (failing_recast hnowhere below t _)

theorem useMember_recast (object : Value) (field : Ident) (env : Environment)
    (args : Option (List Expr)) (hknows : g.Knows s.outside.host object) :
    (t.recast g below).useMember (s.recast (g.veil extra)) (object.recast g) (field.recast g) env
      (args.map fun es => es.map (Expr.recast g)) =
      g.moved below extra (t.useMember s object field env args) := by
  have hmember : (s.recast (g.veil extra)).member (object.recast g) (field.recast g).name =
      Answer.recast (g.veil extra) (s.member object field.name) :=
    Store.member_recast (g.veil extra) s object field.name hknows
  cases args with
  | none =>
      simp only [Option.map_none, useMember, hmember]
      exact answered_recast hnowhere below extra t _
  | some args =>
      simp only [Option.map_some, useMember, hmember]
      cases s.member object field.name with
      | mk answer s' =>
          cases answer with
          | ok f =>
              exact gather_recast hnowhere below extra t s'
                (.method f object field.position) env [] args
          | error fault =>
              exact congrArg (·, s'.recast (g.veil extra)) (failing_recast hnowhere below t _)

omit hnowhere in
theorem unlocked_recast (id : Nat) (x : Option Value) :
    unlocked (s.recast (g.veil extra)) id (x.map (Value.recast g)) =
      (unlocked s id x).recast (g.veil extra) :=
  mutexes_recast extra s _ (fun c => by cases x <;> rfl) id

theorem resumeForNext_recast (iterator : Value) (item : String) (body : Block) (env : Environment)
    (x : Value) :
    (t.recast g below).resumeValue (s.recast (g.veil extra)) (x.recast g)
      ((Frame.forNext iterator item body env).recast g below.scope) =
      g.moved below extra (t.resumeValue s x (.forNext iterator item body env)) := by
  have hnames : ∀ x : Value, (s.recast (g.veil extra)).typeName (x.recast g) = s.typeName x :=
    Store.typeName_recast (g.veil extra) s
  have hfailing : ∀ fault : Fault,
      fault = .hookResult "__next__" (s.typeName iterator) (s.typeName x) "Option" →
      ((t.recast g below).failing (.hookResult "__next__"
        ((s.recast (g.veil extra)).typeName (iterator.recast g))
        ((s.recast (g.veil extra)).typeName (x.recast g)) "Option"), s.recast (g.veil extra)) =
        g.moved below extra (t.failing fault, s) := by
    rintro fault rfl
    rw [hnames, hnames]
    exact congrArg (·, s.recast (g.veil extra)) (failing_recast hnowhere below t
      (.hookResult "__next__" (s.typeName iterator) (s.typeName x) "Option"))
  cases x with
  | none => rfl
  | some inner id =>
      have hset := Scopes.set_map (Value.recast g) s.scopes env item inner
      have hscopes : (s.recast (g.veil extra)).scopes = s.scopes.map (Value.recast g) := rfl
      simp only [Value.recast, Frame.recast, resumeValue, hscopes, hset]
      rfl
  | _ => exact hfailing _ rfl

theorem resumeCheck_recast (hook : HookCheck) (subject x : Value) :
    (t.recast g below).resumeValue (s.recast (g.veil extra)) (x.recast g)
      ((Frame.check hook subject).recast g below.scope) =
      g.moved below extra (t.resumeValue s x (.check hook subject)) := by
  have hnames : ∀ x : Value, (s.recast (g.veil extra)).typeName (x.recast g) = s.typeName x :=
    Store.typeName_recast (g.veil extra) s
  have haccepts : hook.accepts (x.recast g) = hook.accepts x := by
    cases hook <;> cases x <;> rfl
  simp only [Frame.recast, resumeValue, haccepts, hnames]
  split
  · rfl
  · exact congrArg (·, s.recast (g.veil extra)) (failing_recast hnowhere below t
      (.hookResult hook.hook (s.typeName subject) (s.typeName x) hook.expected))

/-- With a value, every frame goes on in every guise the same, if the host answers
in that guise. -/
theorem resumeValue_recast (x : Value) (f : Frame) (hknows : g.Knows s.outside.host x)
    (hleft : ∀ op left, f = .rightOperand op left → g.Knows s.outside.host left) :
    (t.recast g below).resumeValue (s.recast (g.veil extra)) (x.recast g) (f.recast g below.scope) =
      g.moved below extra (t.resumeValue s x f) := by
  have hequal := fun (t : Task) => askEqual_recast g below extra t s
  have hanswered := fun (t : Task) (a : Answer) => answered_recast hnowhere below extra t a
  have hfailing : ∀ fault : Fault, fault.recast g = fault →
      ((t.recast g below).failing fault, s.recast (g.veil extra)) =
        g.moved below extra (t.failing fault, s) := by
    intro fault hfault
    rw [Guise.moved, ← failing_recast hnowhere below t, hfault]
  cases f with
  | block rest env => cases rest <;> rfl
  | bind name env => exact binding_recast below extra t s env name x
  | branchCondition body rest otherwise env =>
      exact congrArg (·, s.recast (g.veil extra))
        (askTruth_recast g below (t.pushed (.branchTruth body rest otherwise env)) x)
  | branchTruth body rest otherwise env =>
      have hchoose := congrArg (·, s.recast (g.veil extra))
        (chooseFrom_recast g below t env otherwise rest)
      cases x with
      | bool b => cases b <;> first | rfl | exact hchoose
      | _ => exact hchoose
  | whileCondition condition body env =>
      exact congrArg (·, s.recast (g.veil extra))
        (askTruth_recast g below (t.pushed (.whileTruth condition body env)) x)
  | whileTruth condition body env =>
      cases x with
      | bool b => cases b <;> rfl
      | _ => rfl
  | forNext iterator item body env =>
      exact resumeForNext_recast hnowhere below extra t s iterator item body env x
  | items purpose env done rest =>
      exact gather_recast hnowhere below extra t s purpose env (x :: done) rest
  | operand op => exact applyUnary_recast hnowhere below extra t s op x hknows
  | rightOperand op left =>
      exact applyBinary_recast hnowhere below extra t s op left x (hleft op left rfl)
  | firstTerm op right env =>
      exact congrArg (·, s.recast (g.veil extra))
        (askTruth_recast g below (t.pushed (.firstTruth op x right env)) x)
  | firstTruth op left right env =>
      cases x with
      | bool b => cases op <;> cases b <;> rfl
      | _ => cases op <;> rfl
  | negated =>
      cases x with
      | bool b => cases b <;> rfl
      | _ => rfl
  | callee args site env => exact gather_recast hnowhere below extra t s (.call x site) env [] args
  | receiver field args env =>
      exact useMember_recast hnowhere below extra t s x field env args hknows
  | check hook subject => exact resumeCheck_recast hnowhere below extra t s hook subject x
  | printing done rest =>
      cases x with
      | str text id => exact printing_recast hnowhere below extra t s (text :: done) rest
      | _ => exact printing_recast hnowhere below extra t s done rest
  | freshText =>
      cases x with
      | str text id => exact hanswered t (s.giveText text)
      | _ => rfl
  | someText =>
      cases x with
      | str text id => exact hanswered t (s.giveText _)
      | _ => rfl
  | listText done rest =>
      cases x with
      | str text id => exact listText_recast hnowhere below extra t s (text :: done) rest
      | _ => exact listText_recast hnowhere below extra t s done rest
  | pairs rest =>
      have hpairs := congrArg (·, s.recast (g.veil extra))
        (comparePairs_recast g below extra t s rest)
      cases x with
      | bool b => cases b <;> first | rfl | exact hpairs
      | _ => rfl
  | seeking target index onlyWhether rest =>
      have hseek := congrArg (·, s.recast (g.veil extra))
        (seek_recast g below extra t s target (index + 1) onlyWhether rest)
      cases x with
      | bool b =>
          cases b with
          | false => exact hseek
          | true =>
              cases onlyWhether with
              | true => rfl
              | false =>
                  exact hanswered t ((s.newInt (Int64.ofNat index)).2.giveSome
                    (s.newInt (Int64.ofNat index)).1)
      | _ => exact hseek
  | updating id => exact congrArg (Prod.mk _) (unlocked_recast extra s id (some x))
  | assertTruth =>
      cases x with
      | bool b => cases b <;> first | rfl | exact hfailing .assertion rfl
      | _ => exact hfailing .assertion rfl
  | assertEqual left right wanted =>
      cases x with
      | bool b => cases b <;> cases wanted <;> rfl
      | _ => rfl
  | assertLeft right wanted => cases x <;> rfl
  | assertRight left wanted =>
      cases x with
      | str right id =>
          cases wanted
          · exact hfailing (.assertionDifferent left right) rfl
          · exact hfailing (.assertionEqual left right) rfl
      | _ => rfl
  | _ => rfl

end

/-- Whether what is known of a thread is a failure for the same cause with the
same calls. -/
def Tells (s : Store) (id : Nat) (f : Failure) : Prop :=
  ∃ told : Failure, s.threads[id]? = some (.ended (.error told)) ∧ told.fault = f.fault ∧
    told.trace = f.trace

section

variable {g : Guise} (extra : Nat) (s : Store)

theorem setThread_recast (id : Nat) (cell : ThreadCell) :
    (s.recast (g.veil extra)).setThread id (cell.recast g id) =
      (s.setThread id cell).recast (g.veil extra) := by
  have hcells : (s.threads.mapIdx (ThreadCell.recast g)).modify id (fun _ => cell.recast g id) =
      (s.threads.modify id fun _ => cell).mapIdx (ThreadCell.recast g) := by
    apply Array.ext_getElem?
    intro j
    simp only [Array.getElem?_modify, Array.getElem?_mapIdx]
    split
    · rename_i hj
      subst hj
      cases s.threads[id]? <;> rfl
    · rfl
  simp only [Store.setThread, Store.recast, Guise.veil, hcells]

theorem setThread_eq_self {id : Nat} {cell : ThreadCell} (h : s.threads[id]? = some cell) :
    s.setThread id cell = s := by
  have hcells : s.threads.modify id (fun _ => cell) = s.threads := by
    apply Array.ext_getElem?
    intro j
    rw [Array.getElem?_modify]
    split
    · rename_i hj
      subst hj
      simp [h]
    · rfl
  simp only [Store.setThread, hcells]

/-- Where a guise keeps what is known, reports are given their places in every
guise the same. -/
theorem located_recast_of_known (hknown : ∀ p, (g.place p).isKnown = p.isKnown) (f : Failure)
    (p : Position) :
    located (s.recast (g.veil extra)) (f.recast g) (g.place p) =
      ((located s f p).1.recast g, (located s f p).2.recast (g.veil extra)) := by
  have hposition : (f.recast g).position.isKnown = f.position.isKnown := hknown f.position
  simp only [located, Failure.locate, hposition]
  split
  · rfl
  · obtain ⟨fault, position, trace, thread⟩ := f
    cases thread with
    | none => rfl
    | some id =>
        exact congrArg (Prod.mk _) (setThread_recast extra s id
          (.ended (.error ⟨fault, p, trace, some id⟩)))

/-- A report with no place that is given none stays what it is known to be. -/
theorem located_nowhere (s : Store) {f : Failure} (hplace : f.position = .nowhere)
    (htold : ∀ id, f.thread = some id → s.threads[id]? = some (.ended (.error f))) :
    located s f .nowhere = (f, s) := by
  obtain ⟨fault, position, trace, thread⟩ := f
  obtain rfl : position = .nowhere := hplace
  cases thread with
  | none => rfl
  | some id => exact congrArg (Prod.mk _) (setThread_eq_self s (htold id rfl))

/-- Where a guise leaves nothing known, giving a report its place is seen
nowhere, if the thread that left it behind left the same. -/
theorem located_recast_of_nowhere (hblank : ∀ p, g.place p = .nowhere) {f : Failure}
    (htells : ∀ id, f.thread = some id → Tells s id f) (p : Position) :
    located (s.recast (g.veil extra)) (f.recast g) (g.place p) =
      ((located s f p).1.recast g, (located s f p).2.recast (g.veil extra)) := by
  have hthread : ∀ id, f.thread = some id →
      (s.recast (g.veil extra)).threads[id]? = some (.ended (.error (f.recast g))) := by
    intro id hid
    obtain ⟨told, hcell, hfault, htrace⟩ := htells id hid
    rw [thread_recast, hcell]
    simp only [Option.map_some, ThreadCell.recast, Failure.recast, hblank, hfault, htrace, hid]
  have hplaced : (f.locate p).recast g = f.recast g := by
    unfold Failure.locate
    split
    · rfl
    · simp only [Failure.recast, hblank]
  rw [hblank, located_nowhere _ (hblank _) hthread]
  unfold located
  split
  · rfl
  · dsimp only
    split
    · rename_i id hid
      have hlocated : (f.locate p).thread = f.thread := by
        unfold Failure.locate
        split <;> rfl
      rw [hlocated] at hid
      have hcell : ThreadCell.recast g id (.ended (.error (f.locate p))) =
          .ended (.error (f.recast g)) := by
        rw [ThreadCell.recast, hplaced]
        simp only [Failure.recast, hid]
      rw [hplaced, ← setThread_recast, hcell, setThread_eq_self _ (hthread id hid)]
    · rw [hplaced]

end

section

variable {g : Guise} (below : Footing) (extra : Nat) (t : Task) (s : Store)

def Places (g : Guise) (extra : Nat) (s : Store) (o : Outcome) : Prop :=
  ∀ f, o = .failed f → ∀ p, located (s.recast (g.veil extra)) (f.recast g) (g.place p) =
    ((located s f p).1.recast g, (located s f p).2.recast (g.veil extra))

theorem exited_recast (position : Option Position) (outer : Option Environment) {o : Outcome}
    (hdepth : below.depth = 0 ∨ 0 < t.depth) (hplaces : Places g extra s o) :
    (t.recast g below).exited (s.recast (g.veil extra)) (position.map g.place)
      (outer.or below.scope) (o.recast g) = g.moved below extra (t.exited s position outer o) := by
  have hless : t.depth + below.depth - 1 = t.depth - 1 + below.depth := by omega
  have hleft : ∀ o : Outcome, ({ t.recast g below with
      scope := outer.or below.scope, depth := t.depth + below.depth - 1 } : Task).doing
        (.outcome (o.recast g)) =
      Task.recast g below (({ t with scope := outer, depth := t.depth - 1 } : Task).doing
        (.outcome o)) := by
    intro o
    rw [hless]
    rfl
  cases o with
  | failed f =>
      cases position with
      | none => exact congrArg (·, s.recast (g.veil extra)) (hleft (.failed f))
      | some p =>
          simp only [Option.map_some, Outcome.recast, exited, hplaces f rfl p]
          exact congrArg (·, _) (hleft (.failed (located s f p).1))
  | value x => exact congrArg (·, s.recast (g.veil extra)) (hleft (.value x))
  | returned x => exact congrArg (·, s.recast (g.veil extra)) (hleft (.returned x))
  | left => exact congrArg (·, s.recast (g.veil extra)) (hleft .left)
  | skipped => exact congrArg (·, s.recast (g.veil extra)) (hleft .skipped)

theorem withTrace_recast (f : Failure) (calls : List CallSite) :
    (f.recast g).withTrace (calls.map (CallSite.recast g)) = (f.withTrace calls).recast g := by
  obtain ⟨fault, position, trace, thread⟩ := f
  cases trace <;> rfl

theorem returned_recast (o : Outcome) :
    (t.recast g below).returned (o.recast g) = (t.returned o).recast g below := by
  have hcalls : ({ t.recast g below with calls := (t.recast g below).calls.tail } : Task) =
      Task.recast g below { t with calls := t.calls.tail } := by
    simp only [recast, List.map_tail]
  cases o with
  | failed f =>
      simp only [Outcome.recast, returned, hcalls]
      rw [show (t.recast g below).calls = t.calls.map (CallSite.recast g) from rfl,
        withTrace_recast]
      rfl
  | value x | returned x =>
      simp only [Outcome.recast, returned, hcalls]
      rfl
  | left | skipped =>
      simp only [Outcome.recast, returned, hcalls]
      rfl

theorem bodyOutcome_recast (hnowhere : g.place .nowhere = .nowhere) (name : String) {o : Outcome}
    (hquiet : g.hushes = true → o ≠ .left ∧ o ≠ .skipped) :
    bodyOutcome name (o.recast g) = (bodyOutcome name o).recast g := by
  have hstray : ∀ fault : Fault, fault.recast g = fault →
      Outcome.failed (Failure.ofFault fault) =
        Outcome.recast g (.failed (Failure.ofFault fault)) := by
    intro fault hfault
    simp only [Outcome.recast, Failure.recast, Failure.ofFault, hfault, hnowhere, List.map_nil]
  cases hhushes : g.hushes with
  | true =>
      obtain ⟨hleft, hskipped⟩ := hquiet hhushes
      cases o with
      | left => exact absurd rfl hleft
      | skipped => exact absurd rfl hskipped
      | _ => rfl
  | false =>
      cases o with
      | left => exact hstray (.strayBreak (some name)) (by simp [Fault.recast, hhushes])
      | skipped => exact hstray (.strayContinue (some name)) (by simp [Fault.recast, hhushes])
      | _ => rfl

/-- The innermost frame, which is taken off, goes on in every guise the same:
with room below for what it leaves, reports that are given places, a host that
answers in the guise, and, where failures for leaving no loop are hushed, no such
failure. -/
theorem resume_recast (hnowhere : g.place .nowhere = .nowhere) {o : Outcome} {f : Frame}
    (hdepth : f.kind = .charged → below.depth = 0 ∨ 0 < t.depth) (hplaces : Places g extra s o)
    (hquiet : g.hushes = true → f.kind = .function → o ≠ .left ∧ o ≠ .skipped)
    (hknows : ∀ x, o = .value x → g.Knows s.outside.host x)
    (hleft : ∀ op left, f = .rightOperand op left → g.Knows s.outside.host left) :
    (t.recast g below).resume (s.recast (g.veil extra)) (o.recast g) (f.recast g below.scope) =
      g.moved below extra (t.resume s o f) := by
  have hvalue := fun x (ho : o = .value x) =>
    resumeValue_recast hnowhere below extra t s x f (hknows x ho) hleft
  cases f with
  | leaveNode position outer =>
      exact exited_recast below extra t s position outer (hdepth rfl) hplaces
  | leaveHook =>
      have hless : t.depth + below.depth - 1 = t.depth - 1 + below.depth := by
        have := hdepth rfl
        omega
      simp only [Frame.recast, resume, Guise.moved, recast, hless]
      rfl
  | leaveCall => exact congrArg (·, s.recast (g.veil extra)) (returned_recast below t o)
  | leaveFunction name =>
      have hbody := bodyOutcome_recast hnowhere name fun hhushes => hquiet hhushes rfl
      simp only [Frame.recast, resume, hbody]
      rfl
  | leaveInstance => rfl
  | program rest env => cases o <;> cases rest <;> rfl
  | whileBody condition body env | forBody iterator item body env =>
      cases o with
      | value x => exact hvalue x rfl
      | _ => rfl
  | updating id =>
      cases o with
      | value x => exact hvalue x rfl
      | _ => exact congrArg (Prod.mk _) (unlocked_recast extra s id none)
  | _ =>
      cases o with
      | value x => exact hvalue x rfl
      | _ => rfl

end

section

variable {g : Guise} (below : Footing) (extra : Nat) (t : Task) (s : Store)

theorem entered_recast (position : Option Position) (env : Environment) :
    (t.recast g below).entered (position.map g.place) env =
      (t.entered position env).recast g below := by
  simp only [entered, recast, Nat.add_right_comm t.depth]
  rfl

/-- A node is refused, or begins, in every guise the same. -/
theorem node_recast (limits : Limits)
    (hnowhere : g.place .nowhere = .nowhere)
    (hroom : below.depth = 0 ∧ extra = 0 ∨ t.depth + below.depth + 1 ≤ limits.maxDepth ∧
      (0 < limits.maxSteps → s.steps + extra + 1 ≤ limits.maxSteps))
    {position position' : Option Position} (hposition : position' = position.map g.place)
    (env : Environment) (begins begins' : Task → Store → Task × Store)
    (hbegins : ∀ u s, begins' (u.recast g below) (s.recast (g.veil extra)) =
      g.moved below extra (begins u s)) :
    (match (t.recast g below).refusal limits (s.recast (g.veil extra)) with
      | (some fault, s) => ((t.recast g below).failing fault, s)
      | (none, s) => begins' ((t.recast g below).entered position' env) s) =
      g.moved below extra (match t.refusal limits s with
        | (some fault, s) => (t.failing fault, s)
        | (none, s) => begins (t.entered position env) s) := by
  rw [refusal_recast below extra t s limits hroom, hposition]
  cases t.refusal limits s with
  | mk refused s' =>
      cases refused with
      | some fault =>
          exact congrArg (·, s'.recast (g.veil extra)) (failing_recast hnowhere below t _)
      | none =>
          simp only [Option.map_none, entered_recast]
          exact hbegins _ s'

end

/-- Whether a thread is about to do what the depth or the number of steps is
limited for, and beyond that limit. -/
def Exceeds (limits : Limits) (t : Task) (s : Store) : Prop :=
  match t.control with
  | .expr _ _ | .stmt _ _ | .block _ _ | .program _ _ =>
    limits.maxDepth < t.depth + 1 ∨ 0 < limits.maxSteps ∧ limits.maxSteps < s.steps + 1
  | .hook _ _ _ => limits.maxDepth < t.depth + 1
  | _ => False

/-- The values for which a step of a thread may ask the host: what the thread calls
or puts a question to, the value that a frame waited for, and the left operand while
the right one is waited for. -/
inductive Consults : Task → Value → Prop where
  | callee {t : Task} {x : Value} {args : List Value} (h : t.control = .call x args) : Consults t x
  | receiver {t : Task} {x : Value} {name : String} {args : List Value}
      (h : t.control = .hook x name args) : Consults t x
  | outcome {t : Task} {x : Value} (h : t.control = .outcome (.value x)) : Consults t x
  | left {t : Task} {x : Value} {op : BinaryOp} {rest : List Frame}
      (h : t.frames = .rightOperand op x :: rest) : Consults t x

/-- Where a thread looks the same in two guises, so does what it may ask for. -/
theorem Consults.same {g g' : Guise} {t : Task} {x : Value} (hconsults : t.Consults x)
    (h : t.recast g .ground = t.recast g' .ground) : x.recast g = x.recast g' := by
  have hcontrol := congrArg Task.control h
  have hframes := congrArg Task.frames h
  cases hconsults with
  | callee hc =>
      simp only [recast, hc, Control.recast] at hcontrol
      exact (Control.call.inj hcontrol).1
  | receiver hc =>
      simp only [recast, hc, Control.recast] at hcontrol
      exact (Control.hook.inj hcontrol).1
  | outcome hc =>
      simp only [recast, hc, Control.recast, Outcome.recast] at hcontrol
      exact Outcome.value.inj (Control.outcome.inj hcontrol)
  | left hf =>
      simp only [recast, hf, List.map_cons, Frame.recast, List.cons_append] at hframes
      exact (Frame.rightOperand.inj (List.cons.inj hframes).1).2

/-- What a step of a thread must keep to, so that it looks in a guise the same:
the thread has something to do where it stands, room for that, and books that
count its own nodes; the function it calls keeps its body; a hushed failure does
not arise; reports get their places; and the host answers in the guise. -/
structure Fits (g : Guise) (below : Footing) (extra : Nat) (limits : Limits) (t : Task)
    (s : Store) : Prop where
  going : below.frames = [] ∨ t.result? = none
  room : below.depth = 0 ∧ extra = 0 ∨
    ¬ (t.recast g below).Exceeds limits (s.recast (g.veil extra))
  depth : below.depth = 0 ∨ charges t.frames ≤ t.depth
  body : ∀ f id args, t.control = .call (.function f id) args →
    g.body f.body (f.body.recast g) = f.body.recast g
  quiet : g.hushes = true → ∀ f rest, t.frames = f :: rest → f.kind = .function →
    t.control ≠ .outcome .left ∧ t.control ≠ .outcome .skipped
  places : ∀ o, t.control = .outcome o → Places g extra s o
  knows : ∀ x, t.Consults x → g.Knows s.outside.host x

section

variable {g : Guise} {below : Footing} {extra : Nat} {limits : Limits} {t : Task} {s : Store}

/-- A step of a thread and a guise that it fits may be exchanged. -/
theorem step_recast (h : Fits g below extra limits t s) (hnowhere : g.place .nowhere = .nowhere)
    (hscope : below.scope.getD [] = []) :
    (t.recast g below).step limits (s.recast (g.veil extra)) =
      g.moved below extra (t.step limits s) := by
  obtain ⟨hgoing, hroom, hdepth, hbody, hquiet, hplaces, hknows⟩ := h
  obtain ⟨control, frames, scope, depth, calls, file⟩ := t
  have hnode := node_recast below extra ⟨control, frames, scope, depth, calls, file⟩ s limits
    hnowhere
  -- What no limit refuses in the guise is refused without it by none either.
  have hfree : ¬ (limits.maxDepth < depth + below.depth + 1 ∨
      0 < limits.maxSteps ∧ limits.maxSteps < s.steps + extra + 1) →
      below.depth = 0 ∧ extra = 0 ∨ depth + below.depth + 1 ≤ limits.maxDepth ∧
        (0 < limits.maxSteps → s.steps + extra + 1 ≤ limits.maxSteps) := by
    omega
  cases control with
  | expr e env =>
      exact hnode (hroom.elim .inl hfree) (congrArg some (e.position_recast g)) env
        (fun u s => u.beginExpr s env e) (fun u s => u.beginExpr s env (e.recast g))
        fun u s => beginExpr_recast hnowhere below extra u s env e
  | stmt st env =>
      exact hnode (hroom.elim .inl hfree) (congrArg some (st.position_recast g)) env
        (fun u s => u.beginStmt s env st) (fun u s => u.beginStmt s env (st.recast g))
        fun u s => beginStmt_recast below extra u s env st
  | block b env =>
      refine hnode (hroom.elim .inl hfree) (congrArg some (b.position_recast g)) env
        (fun u s => (u.beginBlock env b.statements, s))
        (fun u s => (u.beginBlock env (b.recast g).statements, s)) fun u s => ?_
      rw [Block.statements_recast]
      exact congrArg (·, s.recast (g.veil extra)) (beginBlock_recast g below u env b.statements)
  | program statements env =>
      exact hnode (hroom.elim .inl hfree) (Option.map_none (f := g.place)).symm env
        (fun u s => (u.beginProgram env statements, s))
        (fun u s => (u.beginProgram env (statements.map (Stmt.recast g)), s))
        fun u s => congrArg (·, s.recast (g.veil extra))
          (beginProgram_recast g below u env statements)
  | call callee args =>
      exact call_recast hnowhere below extra _ s callee args hscope
        (fun f id hcallee => hbody f id args (by rw [hcallee])) (hknows callee (.callee rfl))
  | hook receiver name args =>
      refine callHook_recast hnowhere below extra _ s limits receiver name args ?_
        (hknows receiver (.receiver rfl))
      rcases hroom with ⟨hzero, -⟩ | hroom
      · exact .inl hzero
      · exact .inr (Nat.not_lt.mp hroom)
  | asleep wakeUp =>
      exact congrArg (·, s.recast (g.veil extra)) (sleepOn_recast hnowhere below extra _ s wakeUp)
  | joining ids => exact joinAll_recast hnowhere below extra _ s ids
  | outcome o =>
      cases frames with
      | nil =>
          rcases hgoing with hbelow | hgoing
          · obtain ⟨belowFrames, belowDepth, belowScope⟩ := below
            obtain rfl : belowFrames = [] := hbelow
            rfl
          · exact nomatch hgoing
      | cons f rest =>
          refine resume_recast below extra ⟨.outcome o, rest, scope, depth, calls, file⟩ s hnowhere
            ?_ (hplaces o rfl) ?_ ?_ ?_
          · intro hkind
            refine hdepth.imp_right fun hle => ?_
            dsimp only at hle ⊢
            have hcharged : charges (f :: rest) = charges rest + 1 := by simp [charges, hkind]
            omega
          · intro hhushes hkind
            obtain ⟨hleft, hskipped⟩ := hquiet hhushes f rest rfl hkind
            exact ⟨fun ho => hleft (congrArg _ ho), fun ho => hskipped (congrArg _ ho)⟩
          · exact fun x ho => hknows x (.outcome (congrArg Control.outcome ho))
          · exact fun op left hf => hknows left (.left (congrArg (· :: rest) hf))

end

end Task

end Scriptlet
