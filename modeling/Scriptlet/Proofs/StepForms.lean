/-
What a step can do, said once: a frame with a value, a frame with any outcome,
and a thread.  What holds of all steps is shown by cases on the form.
-/
import Scriptlet.Machine.Step

namespace Scriptlet

namespace Frame

/-- Whether a frame stands for something that was entered and is to be left: a
node, a hook, a call in traces, or the call of a function or an instance. -/
def isLeaving : Frame → Bool
  | .leaveNode _ _ | .leaveHook | .leaveCall | .leaveFunction _ | .leaveInstance => true
  | _ => false

/-- Whether a frame takes up an outcome that is no value: a loop does so with the signals
that are meant for it, and a program with what returns from it. -/
def takesUp : Frame → Outcome → Bool
  | .program _ _, .returned _ => true
  | .whileBody _ _ _, .left | .whileBody _ _ _, .skipped => true
  | .forBody _ _ _ _, .left | .forBody _ _ _ _, .skipped => true
  | _, _ => false

end Frame

def Frame.updates (mutex : Nat) : Frame → Bool
  | .updating id => id = mutex
  | _ => false

theorem any_updates_iff {mutex : Nat} {frames : List Frame} :
    frames.any (Frame.updates mutex) = true ↔ Frame.updating mutex ∈ frames := by
  rw [List.any_eq_true]
  constructor
  · rintro ⟨f, hf, hupdates⟩
    cases f with
    | updating id =>
        obtain rfl := of_decide_eq_true hupdates
        exact hf
    | _ => exact nomatch hupdates
  · exact fun hf => ⟨_, hf, decide_eq_true rfl⟩

instance (mutex : Nat) (frames : List Frame) : Decidable (Frame.updating mutex ∈ frames) :=
  decidable_of_iff _ any_updates_iff

def Control.isNode : Control → Bool
  | .expr _ _ | .stmt _ _ | .block _ _ | .program _ _ => true
  | _ => false

namespace Task

variable {limits : Limits} {t : Task} {s : Store} {v : Value} {f : Frame} {r : Task × Store}

/-- The forms of going on with a value: the frame that had waited for it, and
what comes of it. -/
inductive ValueForm (t : Task) (s : Store) (v : Value) : Frame → Task × Store → Prop
  | passes {f : Frame} : ValueForm t s v f (t.having v, s)
  | null {f : Frame} : ValueForm t s v f (t.having .null, s)
  | bool {f : Frame} (b : Bool) : ValueForm t s v f (t.having (.bool b), s)
  | fails {f : Frame} (fault : Fault) : ValueForm t s v f (t.failing fault, s)
  | text {f : Frame} (text : Text) : ValueForm t s v f (t.answered (s.giveText text))
  | next (first : Stmt) (rest : List Stmt) (env : Environment) :
      ValueForm t s v (.block (first :: rest) env)
        (t.awaiting (.block rest env) (.stmt first env), s)
  | binding (name : String) (env : Environment) :
      ValueForm t s v (.bind name env) (t.binding s env name v)
  | storeValue (object subscript : Expr) (env : Environment) :
      ValueForm t s v (.storeValue object subscript env)
        (t.awaiting (.storeObject subscript v env) (.expr object env), s)
  | storeObject (subscript : Expr) (value : Value) (env : Environment) :
      ValueForm t s v (.storeObject subscript value env)
        (t.awaiting (.storeSubscript v value) (.expr subscript env), s)
  | storeSubscript (object value : Value) :
      ValueForm t s v (.storeSubscript object value)
        (t.awaiting .stored (.hook object "__set_index__" [v, value]), s)
  | branchCondition (body : Block) (rest : List Branch) (otherwise : Option Block)
      (env : Environment) :
      ValueForm t s v (.branchCondition body rest otherwise env)
        ((t.pushed (.branchTruth body rest otherwise env)).askTruth v, s)
  | branch (body : Block) (rest : List Branch) (otherwise : Option Block) (env : Environment) :
      ValueForm t s v (.branchTruth body rest otherwise env) (t.doing (.block body env), s)
  | choose (body : Block) (rest : List Branch) (otherwise : Option Block) (env : Environment) :
      ValueForm t s v (.branchTruth body rest otherwise env) (t.chooseFrom env otherwise rest, s)
  | whileCondition (condition : Expr) (body : Block) (env : Environment) :
      ValueForm t s v (.whileCondition condition body env)
        ((t.pushed (.whileTruth condition body env)).askTruth v, s)
  | whileTruth (condition : Expr) (body : Block) (env : Environment) :
      ValueForm t s v (.whileTruth condition body env)
        (t.awaiting (.whileBody condition body env) (.block body env), s)
  | whileBody (condition : Expr) (body : Block) (env : Environment) :
      ValueForm t s v (.whileBody condition body env)
        (t.awaiting (.whileCondition condition body env) (.expr condition env), s)
  | forSource (item : String) (body : Block) (env : Environment) :
      ValueForm t s v (.forSource item body env)
        (t.awaiting (.forIterator item body env) (.hook v "__iter__" []), s)
  | forIterator (item : String) (body : Block) (env : Environment) :
      ValueForm t s v (.forIterator item body env) (t.askNext v item body env, s)
  | forNext {inner : Value} {id : Nat} (iterator : Value) (item : String) (body : Block)
      (env : Environment) (h : v = .some inner id) :
      ValueForm t s v (.forNext iterator item body env)
        (t.awaiting (.forBody iterator item body env) (.block body env),
          { s with scopes := s.scopes.set env item inner })
  | forBody (iterator : Value) (item : String) (body : Block) (env : Environment) :
      ValueForm t s v (.forBody iterator item body env) (t.askNext iterator item body env, s)
  | giveBack : ValueForm t s v .giveBack (t.doing (.outcome (.returned v)), s)
  | items (purpose : Purpose) (env : Environment) (done : List Value) (rest : List Expr) :
      ValueForm t s v (.items purpose env done rest) (t.gather s purpose env (v :: done) rest)
  | operand (op : UnaryOp) : ValueForm t s v (.operand op) (t.applyUnary s op v)
  | leftOperand (op : BinaryOp) (right : Expr) (env : Environment) :
      ValueForm t s v (.leftOperand op right env)
        (t.awaiting (.rightOperand op v) (.expr right env), s)
  | rightOperand (op : BinaryOp) (left : Value) :
      ValueForm t s v (.rightOperand op left) (t.applyBinary s op left v)
  | firstTerm (op : BinaryOp) (right : Expr) (env : Environment) :
      ValueForm t s v (.firstTerm op right env)
        ((t.pushed (.firstTruth op v right env)).askTruth v, s)
  | secondTerm (op : BinaryOp) (left : Value) (right : Expr) (env : Environment) :
      ValueForm t s v (.firstTruth op left right env) (t.doing (.expr right env), s)
  | settled (op : BinaryOp) (left : Value) (right : Expr) (env : Environment) :
      ValueForm t s v (.firstTruth op left right env) (t.having left, s)
  | callee (args : List Expr) (site : Position) (env : Environment) :
      ValueForm t s v (.callee args site env) (t.gather s (.call v site) env [] args)
  | receiver (field : Ident) (args : Option (List Expr)) (env : Environment) :
      ValueForm t s v (.receiver field args env) (t.useMember s v field env args)
  | indexObject (subscript : Expr) (env : Environment) :
      ValueForm t s v (.indexObject subscript env)
        (t.awaiting (.indexSubscript v) (.expr subscript env), s)
  | indexSubscript (object : Value) :
      ValueForm t s v (.indexSubscript object) (t.doing (.hook object "__get_index__" [v]), s)
  | printing (done done' : List Text) (rest : List Value) :
      ValueForm t s v (.printing done rest) (t.printing s done' rest)
  | listText (done done' : List Text) (rest : List Value) :
      ValueForm t s v (.listText done rest) (t.listText s done' rest)
  | pairs (rest : List (Value × Value)) :
      ValueForm t s v (.pairs rest) (t.comparePairs s rest, s)
  | found (target : Value) (index : Nat) (onlyWhether : Bool) (rest : List Value) :
      ValueForm t s v (.seeking target index onlyWhether rest)
        (t.answered ((s.newInt (Int64.ofNat index)).2.giveSome (s.newInt (Int64.ofNat index)).1))
  | seek (target : Value) (index : Nat) (onlyWhether : Bool) (rest : List Value) :
      ValueForm t s v (.seeking target index onlyWhether rest)
        (t.seek s target (index + 1) onlyWhether rest, s)
  | updating (id : Nat) :
      ValueForm t s v (.updating id) (t.having v, unlocked s id (some v))
  | assertLeft (left right : Value) (wanted : Bool) :
      ValueForm t s v (.assertEqual left right wanted)
        ((t.pushed (.assertLeft right wanted)).askText left, s)
  | assertRight (left : Text) (right : Value) (wanted : Bool) :
      ValueForm t s v (.assertLeft right wanted)
        ((t.pushed (.assertRight left wanted)).askText right, s)

/-- What comes of a value has the form that belongs to the frame. -/
theorem resumeValue_form (h : t.resumeValue s v f = r) : ValueForm t s v f r := by
  subst h
  cases f with
  | block rest env =>
      cases rest with
      | nil => exact .passes
      | cons first rest => exact .next first rest env
  | bind name env => exact .binding name env
  | storeValue object subscript env => exact .storeValue object subscript env
  | storeObject subscript value env => exact .storeObject subscript value env
  | storeSubscript object value => exact .storeSubscript object value
  | stored => exact .null
  | branchCondition body rest otherwise env => exact .branchCondition body rest otherwise env
  | branchTruth body rest otherwise env =>
      simp only [resumeValue]
      split
      · exact .branch body rest otherwise env
      · exact .choose body rest otherwise env
  | whileCondition condition body env => exact .whileCondition condition body env
  | whileTruth condition body env =>
      simp only [resumeValue]
      split
      · exact .whileTruth condition body env
      · exact .null
  | whileBody condition body env => exact .whileBody condition body env
  | forSource item body env => exact .forSource item body env
  | forIterator item body env => exact .forIterator item body env
  | forNext iterator item body env =>
      simp only [resumeValue]
      split
      · exact .null
      · exact .forNext iterator item body env rfl
      · exact .fails _
  | forBody iterator item body env => exact .forBody iterator item body env
  | giveBack => exact .giveBack
  | items purpose env done rest => exact .items purpose env done rest
  | operand op => exact .operand op
  | leftOperand op right env => exact .leftOperand op right env
  | rightOperand op left => exact .rightOperand op left
  | firstTerm op right env => exact .firstTerm op right env
  | firstTruth op left right env =>
      simp only [resumeValue]
      split
      · exact .secondTerm _ left right env
      · exact .secondTerm _ left right env
      · exact .settled op left right env
  | negated =>
      simp only [resumeValue]
      split <;> exact .bool _
  | callee args site env => exact .callee args site env
  | receiver field args env => exact .receiver field args env
  | indexObject subscript env => exact .indexObject subscript env
  | indexSubscript object => exact .indexSubscript object
  | check hook subject =>
      simp only [resumeValue]
      split
      · exact .passes
      · exact .fails _
  | printing done rest =>
      simp only [resumeValue]
      split <;> exact .printing done _ rest
  | freshText =>
      simp only [resumeValue]
      split
      · exact .text _
      · exact .passes
  | someText =>
      simp only [resumeValue]
      split
      · exact .text _
      · exact .passes
  | listText done rest =>
      simp only [resumeValue]
      split <;> exact .listText done _ rest
  | pairs rest =>
      simp only [resumeValue]
      split
      · exact .pairs rest
      · exact .passes
  | seeking target index onlyWhether rest =>
      simp only [resumeValue]
      split
      · split
        · exact .passes
        · exact .found target index onlyWhether rest
      · exact .seek target index onlyWhether rest
  | updating id => exact .updating id
  | assertTruth =>
      simp only [resumeValue]
      split
      · exact .null
      · exact .fails _
  | assertEqual left right wanted =>
      simp only [resumeValue]
      split
      · split
        · exact .null
        · exact .assertLeft left right wanted
      · exact .passes
  | assertLeft right wanted =>
      simp only [resumeValue]
      split
      · exact .assertRight _ right wanted
      · exact .passes
  | assertRight left wanted =>
      simp only [resumeValue]
      split
      · exact .fails _
      · exact .passes
  | leaveNode position outer | leaveHook | leaveCall | leaveFunction name | leaveInstance
  | program rest env => exact .passes

/-- The forms of going on with an outcome. -/
inductive OutcomeForm (t : Task) (s : Store) : Outcome → Frame → Task × Store → Prop
  | exited (o : Outcome) (position : Option Position) (outer : Option Environment) :
      OutcomeForm t s o (.leaveNode position outer) (t.exited s position outer o)
  | leftHook (o : Outcome) :
      OutcomeForm t s o .leaveHook ({ t with depth := t.depth - 1 }.doing (.outcome o), s)
  | returned (o : Outcome) : OutcomeForm t s o .leaveCall (t.returned o, s)
  | leftFunction (o : Outcome) (name : String) :
      OutcomeForm t s o (.leaveFunction name) (t.doing (.outcome (bodyOutcome name o)), s)
  | leftInstance (o : Outcome) : OutcomeForm t s o .leaveInstance (t.doing (.outcome o), s)
  | programReturned (v : Value) (rest : List Stmt) (env : Environment) :
      OutcomeForm t s (.returned v) (.program rest env) (t.having v, s)
  | programFailed (f : Failure) (rest : List Stmt) (env : Environment) :
      OutcomeForm t s (.failed f) (.program rest env) (t.doing (.outcome (.failed f)), s)
  | programEnds {o : Outcome} (env : Environment) (h : ∀ v, o ≠ .returned v) :
      OutcomeForm t s o (.program [] env) (t.doing (.outcome o), s)
  | programNext {o : Outcome} (first : Stmt) (rest : List Stmt) (env : Environment)
      (h : ∀ v, o ≠ .returned v) (h' : ∀ f, o ≠ .failed f) :
      OutcomeForm t s o (.program (first :: rest) env)
        (t.awaiting (.program rest env) (.stmt first env), s)
  | value {f : Frame} {r : Task × Store} (v : Value) (hplain : f.isLeaving = false)
      (h : ValueForm t s v f r) : OutcomeForm t s (.value v) f r
  | leftWhile (condition : Expr) (body : Block) (env : Environment) :
      OutcomeForm t s .left (.whileBody condition body env) (t.having .null, s)
  | leftFor (iterator : Value) (item : String) (body : Block) (env : Environment) :
      OutcomeForm t s .left (.forBody iterator item body env) (t.having .null, s)
  | againWhile (condition : Expr) (body : Block) (env : Environment) :
      OutcomeForm t s .skipped (.whileBody condition body env)
        (t.awaiting (.whileCondition condition body env) (.expr condition env), s)
  | againFor (iterator : Value) (item : String) (body : Block) (env : Environment) :
      OutcomeForm t s .skipped (.forBody iterator item body env)
        (t.askNext iterator item body env, s)
  | unlocks {o : Outcome} (id : Nat) (h : ∀ v, o ≠ .value v) :
      OutcomeForm t s o (.updating id) (t.doing (.outcome o), unlocked s id none)
  | skips {o : Outcome} {f : Frame} (hplain : f.isLeaving = false) (h : ∀ v, o ≠ .value v)
      (htakes : f.takesUp o = false) : OutcomeForm t s o f (t.doing (.outcome o), s)

theorem resume_form {o : Outcome} (h : t.resume s o f = r) : OutcomeForm t s o f r := by
  subst h
  cases f with
  | leaveNode position outer => exact .exited o position outer
  | leaveHook => exact .leftHook o
  | leaveCall => exact .returned o
  | leaveFunction name => exact .leftFunction o name
  | leaveInstance => exact .leftInstance o
  | program rest env =>
      cases o with
      | returned v => exact .programReturned v rest env
      | failed f => exact .programFailed f rest env
      | value v | left | skipped =>
          cases rest with
          | nil => exact .programEnds env fun _ => Outcome.noConfusion
          | cons first rest =>
              exact .programNext first rest env (fun _ => Outcome.noConfusion)
                fun _ => Outcome.noConfusion
  | whileBody condition body env =>
      cases o with
      | value v => exact .value v rfl (resumeValue_form rfl)
      | left => exact .leftWhile condition body env
      | skipped => exact .againWhile condition body env
      | returned v | failed f => exact .skips rfl (fun _ => Outcome.noConfusion) rfl
  | forBody iterator item body env =>
      cases o with
      | value v => exact .value v rfl (resumeValue_form rfl)
      | left => exact .leftFor iterator item body env
      | skipped => exact .againFor iterator item body env
      | returned v | failed f => exact .skips rfl (fun _ => Outcome.noConfusion) rfl
  | updating id =>
      cases o with
      | value v => exact .value v rfl (resumeValue_form rfl)
      | returned v | left | skipped | failed f =>
          exact .unlocks id fun _ => Outcome.noConfusion
  | _ =>
      cases o with
      | value v => exact .value v rfl (resumeValue_form rfl)
      | _ => exact .skips rfl (fun _ => Outcome.noConfusion) rfl

/-- The forms of a step. -/
inductive StepForm (limits : Limits) (t : Task) (s : Store) : Task × Store → Prop
  | refused {fault : Fault} {s' : Store} (hnode : t.control.isNode = true)
      (h : t.refusal limits s = (some fault, s')) :
      StepForm limits t s (t.failing fault, s')
  | expr {s' : Store} (e : Expr) (env : Environment) (hcontrol : t.control = .expr e env)
      (h : t.refusal limits s = (none, s')) :
      StepForm limits t s ((t.entered (some e.position) env).beginExpr s' env e)
  | stmt {s' : Store} (stmt : Stmt) (env : Environment) (hcontrol : t.control = .stmt stmt env)
      (h : t.refusal limits s = (none, s')) :
      StepForm limits t s ((t.entered (some stmt.position) env).beginStmt s' env stmt)
  | block {s' : Store} (b : Block) (env : Environment) (hcontrol : t.control = .block b env)
      (h : t.refusal limits s = (none, s')) :
      StepForm limits t s ((t.entered (some b.position) env).beginBlock env b.statements, s')
  | program {s' : Store} (statements : List Stmt) (env : Environment)
      (hcontrol : t.control = .program statements env) (h : t.refusal limits s = (none, s')) :
      StepForm limits t s ((t.entered none env).beginProgram env statements, s')
  | call (callee : Value) (args : List Value) (hcontrol : t.control = .call callee args) :
      StepForm limits t s (t.call s callee args)
  | hook (receiver : Value) (name : String) (args : List Value)
      (hcontrol : t.control = .hook receiver name args) :
      StepForm limits t s (t.callHook limits s receiver name args)
  | waits (h : ∀ o, t.control ≠ .outcome o) : StepForm limits t s (t, s)
  | calledOff (reason : Text) (wakeUp : Nat) (hcontrol : t.control = .asleep wakeUp) :
      StepForm limits t s (t.failing (.cancelled reason), s)
  | awakes (wakeUp : Nat) (hcontrol : t.control = .asleep wakeUp)
      (h : wakeUp ≤ s.outside.elapsed) : StepForm limits t s (t.having .null, s)
  | joinFailed {f : Failure} (ids : List Nat) (hcontrol : t.control = .joining ids)
      (h : joined? s ids = some (.error f)) :
      StepForm limits t s (t.doing (.outcome (.failed f)), s)
  | joined {vs : List Value} (ids : List Nat) (hcontrol : t.control = .joining ids)
      (h : joined? s ids = some (.ok vs)) :
      StepForm limits t s (t.answered (s.giveList vs.toArray))
  | ended (o : Outcome) (hcontrol : t.control = .outcome o) (hframes : t.frames = []) :
      StepForm limits t s (t, s)
  | resumed (o : Outcome) (f : Frame) (rest : List Frame) (hcontrol : t.control = .outcome o)
      (hframes : t.frames = f :: rest) :
      StepForm limits t s ({ t with frames := rest }.resume s o f)

theorem step_form (h : t.step limits s = r) : StepForm limits t s r := by
  subst h
  unfold step
  split <;> rename_i hcontrol
  · split <;> rename_i hrefusal
    · exact .refused (by rw [hcontrol]; rfl) hrefusal
    · exact .expr _ _ hcontrol hrefusal
  · split <;> rename_i hrefusal
    · exact .refused (by rw [hcontrol]; rfl) hrefusal
    · exact .stmt _ _ hcontrol hrefusal
  · split <;> rename_i hrefusal
    · exact .refused (by rw [hcontrol]; rfl) hrefusal
    · exact .block _ _ hcontrol hrefusal
  · split <;> rename_i hrefusal
    · exact .refused (by rw [hcontrol]; rfl) hrefusal
    · exact .program _ _ hcontrol hrefusal
  · exact .call _ _ hcontrol
  · exact .hook _ _ _ hcontrol
  · unfold sleepOn
    split
    · exact .calledOff _ _ hcontrol
    · split <;> rename_i htime
      · exact .waits fun o ho => nomatch hcontrol.symm.trans ho
      · exact .awakes _ hcontrol (Nat.le_of_not_lt htime)
  · unfold joinAll
    split <;> rename_i hjoined
    · exact .waits fun o ho => nomatch hcontrol.symm.trans ho
    · exact .joinFailed _ hcontrol hjoined
    · exact .joined _ hcontrol hjoined
  · split <;> rename_i hframes
    · exact .ended _ hcontrol hframes
    · exact .resumed _ _ _ hcontrol hframes

end Task

end Scriptlet
