/-
What the steps of a thread signal and report.  Each gives the frames below at
most what its code can signal; a failure that names a thread is the one which
that thread left behind; and of threads no more becomes known than that some
wait to be started.
-/
import Scriptlet.Proofs.Bookkeeping
import Scriptlet.Proofs.GuiseSteps
import Scriptlet.Proofs.HoldingSteps
import Scriptlet.Proofs.Signals

namespace Scriptlet

namespace Store

theorem threads_refuseReceiver (s : Store) (method : String) (args : List Value) :
    (s.refuseReceiver method args).2.threads = s.threads :=
  threads_of_settled (settled_refuseReceiver s method args)

theorem threads_member (s : Store) (v : Value) (name : String) :
    (s.member v name).2.threads = s.threads := threads_of_settled (settled_member s v name)

theorem threads_printText (s : Store) (t : Text) : (s.printText t).2.threads = s.threads := by
  unfold printText
  split <;> rfl

end Store

/-- What is known of a thread, but for the place and the number in the report
it left behind. -/
def ThreadCell.gist : ThreadCell → ThreadCell
  | .ended (.error f) => .ended (.error ⟨f.fault, .nowhere, f.trace, none⟩)
  | cell => cell

namespace Store

/-- What is known of the threads, but for places and numbers in reports. -/
def gists (s : Store) : Array ThreadCell := s.threads.map ThreadCell.gist

/-- Whether no more became known of threads than that one waits to be
started. -/
def Grows (s s' : Store) : Prop :=
  s'.gists = s.gists ∨ ∃ callee file, s'.gists = s.gists.push (.waits callee file)

theorem gists_eq {s s' : Store} (h : s'.threads = s.threads) : s'.gists = s.gists :=
  congrArg (Array.map ThreadCell.gist) h

end Store

theorem Task.tells_iff {s : Store} {id : Nat} {f : Failure} :
    Tells s id f ↔ s.gists[id]? = some (.ended (.error ⟨f.fault, .nowhere, f.trace, none⟩)) := by
  simp only [Tells, Store.gists, Array.getElem?_map, Option.map_eq_some_iff]
  constructor
  · rintro ⟨told, hcell, hfault, htrace⟩
    refine ⟨_, hcell, ?_⟩
    rw [ThreadCell.gist, hfault, htrace]
  · rintro ⟨cell, hcell, hgist⟩
    cases cell with
    | ended result =>
        cases result with
        | ok v => exact nomatch hgist
        | error told =>
            obtain ⟨hfault, -, htrace, -⟩ :=
              Failure.mk.inj (Except.error.inj (ThreadCell.ended.inj hgist))
            exact ⟨told, hcell, hfault, htrace⟩
    | _ => exact nomatch hgist

namespace Task

/-- What a thread and its store are once the thread did something: it gives the
frames below the signals in `τ`, a failure that names a thread is known to be
left behind by that, and no more became known of threads than that one waits. -/
structure Yields (allowed τ : Set Signal) (t : Task) (s : Store) (r : Task × Store) : Prop where
  gives : r.1.Gives allowed t.frames τ
  reports : ∀ f id, r.1.control = .outcome (.failed f) → f.thread = some id → Tells s id f
  grows : s.Grows r.2

namespace Yields

variable {allowed σ τ : Set Signal} {t : Task} {s s' : Store} {r : Task × Store}

theorem ended {o : Outcome} (hsignals : o.signals ⊆ τ)
    (hreports : ∀ f id, o = .failed f → f.thread = some id → Tells s id f)
    (hcells : s'.threads = s.threads) : Yields allowed τ t s (t.doing (.outcome o), s') where
  gives := ⟨[], rfl, trivial, hsignals⟩
  reports f id hcontrol hid := hreports f id (Control.outcome.inj hcontrol) hid
  grows := .inl (Store.gists_eq hcells)

theorem having (v : Value) (hcells : s'.threads = s.threads) :
    Yields allowed τ t s (t.having v, s') :=
  ended (Set.empty_subset τ) (fun _ _ h => nomatch h) hcells

theorem failing (fault : Fault) (hcells : s'.threads = s.threads) :
    Yields allowed τ t s (t.failing fault, s') := by
  refine ended (Set.empty_subset τ) (fun f id h hid => ?_) hcells
  obtain rfl := Outcome.failed.inj h
  exact nomatch hid

theorem answered {a : Answer} (hcells : a.2.threads = s.threads) :
    Yields allowed τ t s (t.answered a) := by
  obtain ⟨answer, s'⟩ := a
  cases answer with
  | ok v => exact having v hcells
  | error fault => exact failing fault hcells

theorem turning {c : Control} (hc : ∀ o, c ≠ .outcome o) (hsignals : c.emits ⊆ τ)
    (hcells : s'.threads = s.threads) : Yields allowed τ t s (t.doing c, s') where
  gives := ⟨[], rfl, trivial, hsignals⟩
  reports f _ hcontrol _ := absurd hcontrol (hc (.failed f))
  grows := .inl (Store.gists_eq hcells)

/-- A plain frame passes on what is given to it. -/
theorem behind {f : Frame} (h : Yields allowed σ (t.pushed f) s r) (hplain : f.isLeaving = false)
    (hpassed : f.passed σ ⊆ τ) : Yields allowed τ t s r where
  gives := by
    have habove : r.1.Gives allowed ([f] ++ t.frames) σ := h.gives
    exact (habove.down ⟨Frame.admits_of_plain hplain, trivial⟩).mono hpassed
  reports := h.reports
  grows := h.grows

theorem waiting {f : Frame} {c : Control} (hplain : f.isLeaving = false) (hc : ∀ o, c ≠ .outcome o)
    (hpassed : f.passed c.emits ⊆ τ) (hcells : s'.threads = s.threads) :
    Yields allowed τ t s (t.awaiting f c, s') :=
  behind (turning hc subset_rfl hcells) hplain hpassed

theorem mono (h : Yields allowed σ t s r) (hle : σ ⊆ τ) : Yields allowed τ t s r :=
  ⟨h.gives.mono hle, h.reports, h.grows⟩

end Yields

variable {allowed τ : Set Signal} {t : Task} {s s' : Store}

theorem yields_askTruth (v : Value) (hcells : s'.threads = s.threads) :
    Yields allowed ∅ t s (t.askTruth v, s') := by
  unfold askTruth
  split
  · exact .having _ hcells
  · exact .waiting rfl (fun _ => Control.noConfusion) subset_rfl hcells

theorem yields_askText (v : Value) (hcells : s'.threads = s.threads) :
    Yields allowed ∅ t s (t.askText v, s') :=
  .waiting rfl (fun _ => Control.noConfusion) subset_rfl hcells

theorem yields_askEqual (a b : Value) (hcells : s'.threads = s.threads) :
    Yields allowed ∅ t s (t.askEqual s a b, s') := by
  unfold askEqual
  split
  · exact .waiting rfl (fun _ => Control.noConfusion) subset_rfl hcells
  · exact .having _ hcells

theorem yields_applying (u : Store) (callee : Value) (args : List Value) (site : Position)
    (hcells : s'.threads = s.threads) :
    Yields allowed ∅ t s (t.applying u callee args site, s') where
  gives := ⟨[.leaveCall], rfl, ⟨trivial, trivial⟩, subset_rfl⟩
  reports := fun _ _ => Control.noConfusion
  grows := .inl (Store.gists_eq hcells)

theorem yields_printing (done : List Text) (values : List Value) :
    Yields allowed ∅ t s (t.printing s done values) := by
  induction values generalizing done with
  | nil => exact .answered (Store.threads_printText _ _)
  | cons v rest ih =>
      cases v with
      | str text id => exact ih _
      | _ => exact .behind (yields_askText _ rfl) rfl subset_rfl

theorem yields_listText (done : List Text) (values : List Value) :
    Yields allowed ∅ t s (t.listText s done values) := by
  cases values with
  | nil => exact .answered (a := s.giveText _) rfl
  | cons v rest => exact .behind (yields_askText v rfl) rfl subset_rfl

theorem yields_comparePairs (pairs : List (Value × Value)) :
    Yields allowed ∅ t s (t.comparePairs s pairs, s) := by
  cases pairs with
  | nil => exact .having _ rfl
  | cons pair rest => exact .behind (yields_askEqual pair.1 pair.2 rfl) rfl subset_rfl

theorem yields_seek (target : Value) (index : Nat) (onlyWhether : Bool) (values : List Value) :
    Yields allowed ∅ t s (t.seek s target index onlyWhether values, s) := by
  cases values with
  | nil => exact .having _ rfl
  | cons v rest => exact .behind (yields_askEqual v target rfl) rfl subset_rfl

theorem yields_sleeping (ms : Float) : Yields allowed ∅ t s (t.sleeping s ms, s) := by
  unfold sleeping
  split
  · exact .having _ rfl
  · exact .turning (fun _ => Control.noConfusion) subset_rfl rfl

theorem yields_useMutex (m : MutexMethod) (id : Nat) (cell : MutexCell) (arg : Option Value) :
    Yields allowed ∅ t s (t.useMutex s m id cell arg) := by
  cases m with
  | get => exact .having _ rfl
  | set => exact .having _ rfl
  | update => exact .behind (yields_applying _ _ _ _ rfl) rfl subset_rfl

/-- The failure with which a thread is joined is the one it left behind. -/
theorem yields_joinThread (id : Nat) :
    t.joinThread s id = t ∨ Yields allowed ∅ t s (t.joinThread s id, s) := by
  unfold joinThread
  split
  · exact .inr (.having _ rfl)
  · rename_i f hcell
    refine .inr (.ended subset_rfl (fun g n hg hn => ?_) rfl)
    obtain rfl := Outcome.failed.inj hg
    obtain rfl := Option.some.inj hn
    exact ⟨f, hcell, rfl, rfl⟩
  · exact .inl rfl

theorem joined?_error {ids : List Nat} {f : Failure} (h : joined? s ids = some (.error f)) :
    ∃ id, f.thread = some id ∧ Tells s id f := by
  induction ids with
  | nil => exact nomatch h
  | cons id rest ih =>
      unfold joined? at h
      split at h
      · exact nomatch Option.some.inj h
      · rename_i hrest
        exact ih (hrest.trans h)
      · rename_i g _ hcell _
        obtain rfl := Except.error.inj (Option.some.inj h)
        exact ⟨id, rfl, g, hcell, rfl, rfl⟩
      · exact nomatch h

theorem yields_spawned (v : Value) (file : String) (x : Value) {s' : Store}
    (hcells : s'.threads = (s.newThread v file).2.threads) :
    Yields allowed ∅ t s (t.having x, s') where
  gives := ⟨[], rfl, trivial, subset_rfl⟩
  reports := fun _ _ h => by cases h
  grows := by
    refine .inr ⟨v, file, ?_⟩
    simp only [Store.gists, hcells, Store.newThread, Array.map_push, ThreadCell.gist]

theorem yields_callBack (b : Builtin) (args : List Value) :
    t.callBack s b args = (t, s) ∨ Yields allowed ∅ t s (t.callBack s b args) := by
  generalize hr : t.callBack s b args = r
  cases callBack_form hr with
  | print => exact .inr (yields_printing _ _)
  | freshText v | someText v => exact .inr (.behind (yields_askText v rfl) rfl subset_rfl)
  | text | restless => exact .inr (.answered rfl)
  | length => exact .inr (.turning (fun _ => Control.noConfusion) subset_rfl rfl)
  | spawned => exact .inr (yields_spawned _ _ _ rfl)
  | sleep => exact .inr (yields_sleeping _)
  | assertTruth v => exact .inr (.behind (yields_askTruth v rfl) rfl subset_rfl)
  | assertEqual x y => exact .inr (.behind (yields_askEqual x y rfl) rfl subset_rfl)
  | seek => exact .inr (yields_seek _ _ _ _)
  | listText => exact .inr (yields_listText _ _)
  | comparePairs => exact .inr (yields_comparePairs _)
  | decided | noMutex => exact .inr (.having _ rfl)
  | optionEqual x y => exact .inr (yields_askEqual x y rfl)
  | locked => exact .inl rfl
  | useMutex => exact .inr (yields_useMutex _ _ _ _)
  | joinThread id =>
      rcases yields_joinThread id with hsame | h
      · exact .inl (congrArg (·, s) hsame)
      · exact .inr h
  | joinPool => exact .inr (.turning (fun _ => Control.noConfusion) subset_rfl rfl)
  | refused => exact .inr (.answered (Store.threads_refuseReceiver _ _ _))

theorem yields_callHost (f : HostFunction) (name : String) (bound : Bool) (args : List Value) :
    t.callHost s f name bound args = (t, s) ∨
      Yields allowed ∅ t s (t.callHost s f name bound args) := by
  generalize hr : t.callHost s f name bound args = r
  cases callHost_form hr with
  | failing => exact .inr (.failing _ rfl)
  | endless => exact .inl rfl
  | having h => exact .inr (.having _ (Store.threads_of_settled (HostFunction.settled_call h)))
  | refused _ h => exact .inr (.failing _ (Store.threads_of_settled (HostFunction.settled_call h)))

theorem threads_methodClosures (c : ClassDef) (env : Environment) (methods : List Func)
    (before : List (String × Value)) (s : Store) :
    (methodClosures s c env before methods).2.threads = s.threads := by
  induction methods generalizing before s with
  | nil => rfl
  | cons f rest ih => exact ih _ _

/-- A call gives no signal, if the body of a function gives no signal that is
not allowed. -/
theorem yields_call (callee : Value) (args : List Value)
    (hbody : ∀ f id, callee = .function f id → f.body.emits ⊆ allowed) :
    t.call s callee args = (t, s) ∨ Yields allowed ∅ t s (t.call s callee args) := by
  generalize hr : t.call s callee args = r
  cases call_form hr with
  | arity | notCallable => exact .inr (.failing _ rfl)
  | @function f _ id =>
      exact .inr ⟨⟨[.leaveFunction f.name], rfl, ⟨hbody f id rfl, trivial⟩, subset_rfl⟩,
        fun _ _ => Control.noConfusion, .inl rfl⟩
  | callBack => exact yields_callBack _ _
  | answered => exact .inr (.answered (Store.threads_of_settled (Builtin.settled_answer _ _ _)))
  | host => exact yields_callHost _ _ _ _
  | new => exact .inr (.having _ (threads_methodClosures _ _ _ _ _))
  | forwarded =>
      exact .inr ⟨⟨[.leaveInstance], rfl, ⟨trivial, trivial⟩, subset_rfl⟩,
        fun _ _ => Control.noConfusion, .inl rfl⟩

theorem yields_callHook (limits : Limits) (receiver : Value) (name : String) (args : List Value) :
    Yields allowed ∅ t s (t.callHook limits s receiver name args) := by
  have hcells := Store.threads_member s receiver name
  generalize hr : t.callHook limits s receiver name args = r
  cases callHook_form hr with
  | tooDeep => exact .failing _ rfl
  | missing h =>
      rw [h] at hcells
      exact .failing _ hcells
  | found _ h =>
      rw [h] at hcells
      exact ⟨⟨[.leaveHook], rfl, ⟨trivial, trivial⟩, subset_rfl⟩, fun _ _ => Control.noConfusion,
        .inl (Store.gists_eq hcells)⟩

theorem yields_gather (purpose : Purpose) (env : Environment) (done : List Value)
    (rest : List Expr) {s' : Store} (hcells : s'.threads = s.threads) :
    Yields allowed ∅ t s (t.gather s' purpose env done rest) := by
  cases rest with
  | cons e rest => exact .waiting rfl (fun _ => Control.noConfusion) subset_rfl hcells
  | nil =>
      cases purpose with
      | list => exact .answered (a := s'.giveList _) hcells
      | call callee site => exact yields_applying _ _ _ _ hcells
      | method member receiver site =>
          simp only [gather, gathered]
          split <;> exact yields_applying _ _ _ _ hcells

theorem yields_chooseFrom (env : Environment) (otherwise : Option Block) (branches : List Branch) :
    Yields allowed (branchesEmit branches ∪ otherwiseEmit otherwise) t s
      (t.chooseFrom env otherwise branches, s) := by
  cases branches with
  | nil =>
      cases otherwise with
      | none => exact .having _ rfl
      | some b => exact .turning (fun _ => Control.noConfusion) Set.subset_union_right rfl
  | cons branch rest =>
      obtain ⟨p, condition, body⟩ := branch
      refine .waiting rfl (fun _ => Control.noConfusion) ?_ rfl
      exact Set.union_subset (Set.empty_subset _) (Set.union_assoc _ _ _).superset

theorem yields_beginExpr (env : Environment) (e : Expr) :
    Yields allowed ∅ t s (t.beginExpr s env e) := by
  cases e with
  | name i =>
      simp only [beginExpr]
      split
      · exact .having _ rfl
      · exact .failing _ rfl
  | int p digits n => exact .answered (a := s.giveInt n) rfl
  | float p digits x => exact .answered (a := s.giveFloat x) rfl
  | str p text => exact .answered (a := s.giveText text) rfl
  | bool p b => exact .having _ rfl
  | null p => exact .having _ rfl
  | list p items => exact yields_gather _ _ _ _ rfl
  | unary p op e => exact .waiting rfl (fun _ => Control.noConfusion) subset_rfl rfl
  | binary p op left right =>
      cases op <;> exact .waiting rfl (fun _ => Control.noConfusion) subset_rfl rfl
  | call p callee args => exact .waiting rfl (fun _ => Control.noConfusion) subset_rfl rfl
  | member p object field => exact .waiting rfl (fun _ => Control.noConfusion) subset_rfl rfl
  | method p object field args => exact .waiting rfl (fun _ => Control.noConfusion) subset_rfl rfl
  | index p object subscript => exact .waiting rfl (fun _ => Control.noConfusion) subset_rfl rfl
  | lambda p params body => exact .having _ rfl

theorem yields_beginStmt (env : Environment) (stmt : Stmt) :
    Yields allowed stmt.emits t s (t.beginStmt s env stmt) := by
  cases stmt with
  | expr p word e => exact .turning (fun _ => Control.noConfusion) subset_rfl rfl
  | assign p target e => exact .waiting rfl (fun _ => Control.noConfusion) subset_rfl rfl
  | store p bracket object subscript e =>
      exact .waiting rfl (fun _ => Control.noConfusion) subset_rfl rfl
  | choose p branches otherwise =>
      rw [Stmt.emits_choose]
      exact yields_chooseFrom env otherwise branches
  | repeatWhile p condition body =>
      exact .waiting rfl (fun _ => Control.noConfusion)
        (Set.union_subset (Set.empty_subset _) subset_rfl) rfl
  | forEach p item source body =>
      exact .waiting rfl (fun _ => Control.noConfusion)
        (Set.union_subset (Set.empty_subset _) subset_rfl) rfl
  | declare f => exact .having _ rfl
  | classDef p ident fields methods => exact .having _ rfl
  | giveBack p value =>
      cases value with
      | none => exact .ended subset_rfl (fun _ _ => Outcome.noConfusion) rfl
      | some e =>
          exact .waiting rfl (fun _ => Control.noConfusion)
            (Set.union_subset (Set.empty_subset _) subset_rfl) rfl
  | leave p => exact .ended subset_rfl (fun _ _ => Outcome.noConfusion) rfl
  | skip p => exact .ended subset_rfl (fun _ _ => Outcome.noConfusion) rfl

theorem yields_beginBlock (env : Environment) (statements : List Stmt) :
    Yields allowed (stmtsEmit statements) t s (t.beginBlock env statements, s) := by
  cases statements with
  | nil => exact .having _ rfl
  | cons first rest => exact .waiting rfl (fun _ => Control.noConfusion) subset_rfl rfl

theorem yields_beginProgram (env : Environment) (statements : List Stmt) :
    Yields allowed (stmtsEmit statements \ {.returned}) t s (t.beginProgram env statements, s) := by
  cases statements with
  | nil => exact .having _ rfl
  | cons first rest => exact .waiting rfl (fun _ => Control.noConfusion) subset_rfl rfl

theorem yields_applyUnary (op : UnaryOp) (v : Value) :
    Yields allowed ∅ t s (t.applyUnary s op v) := by
  have hcells := Store.threads_member s v op.hook
  unfold applyUnary
  split <;> rename_i heq <;> rw [heq] at hcells
  · exact .failing _ hcells
  · exact .turning (fun _ => Control.noConfusion) subset_rfl hcells

theorem yields_applyBinary (op : BinaryOp) (left right : Value) :
    Yields allowed ∅ t s (t.applyBinary s op left right) := by
  have hcells := Store.threads_member s left op.number.hook
  unfold applyBinary
  split
  · exact yields_askEqual _ _ rfl
  · exact .behind (yields_askEqual _ _ rfl) rfl subset_rfl
  · split <;> rename_i heq <;> rw [heq] at hcells
    · exact .turning (fun _ => Control.noConfusion) subset_rfl hcells
    · split <;> exact .failing _ hcells

theorem yields_useMember (object : Value) (field : Ident) (env : Environment)
    (args : Option (List Expr)) : Yields allowed ∅ t s (t.useMember s object field env args) := by
  have hcells := Store.threads_member s object field.name
  cases args with
  | none => exact .answered hcells
  | some args =>
      simp only [useMember]
      split <;> rename_i heq <;> rw [heq] at hcells
      · exact .failing _ hcells
      · exact yields_gather _ _ _ _ hcells

theorem yields_askNext (iterator : Value) (item : String) (body : Block) (env : Environment) :
    Yields allowed (body.emits ∩ {.returned}) t s (t.askNext iterator item body env, s) :=
  .waiting rfl (fun _ => Control.noConfusion) (Set.union_subset (Set.empty_subset _) subset_rfl) rfl

/-- With a value, a frame gives what it can without any signal given to it. -/
theorem yields_value {v : Value} {f : Frame} {r : Task × Store} (h : ValueForm t s v f r) :
    Yields allowed (f.passed ∅) t s r := by
  have hdoing : ∀ {c : Control}, (∀ o, c ≠ .outcome o) → c.emits ⊆ f.passed ∅ →
      Yields allowed (f.passed ∅) t s (t.doing c, s) :=
    fun hc hsignals => .turning hc hsignals rfl
  have hwaiting : ∀ {f' : Frame} {c : Control} {s' : Store}, f'.isLeaving = false →
      (∀ o, c ≠ .outcome o) → f'.passed c.emits ⊆ f.passed ∅ → s'.threads = s.threads →
      Yields allowed (f.passed ∅) t s (t.awaiting f' c, s') :=
    fun hplain hc hpassed hcells => .waiting hplain hc hpassed hcells
  cases h with
  | passes | null | bool | binding | settled | updating => exact .having _ rfl
  | fails => exact .failing _ rfl
  | text => exact .answered (a := s.giveText _) rfl
  | found => exact .answered (a := Store.giveSome _ _) rfl
  | next => exact hwaiting rfl (fun _ => Control.noConfusion) Set.subset_union_right rfl
  | storeValue | storeObject | storeSubscript | forSource | leftOperand | indexObject =>
      exact hwaiting rfl (fun _ => Control.noConfusion) subset_rfl rfl
  | branchCondition | whileCondition | firstTerm =>
      exact .behind (yields_askTruth v rfl) rfl subset_rfl
  | branch =>
      exact hdoing (fun _ => Control.noConfusion)
        (Set.subset_union_left.trans Set.subset_union_right)
  | choose body rest otherwise env =>
      exact (yields_chooseFrom env otherwise rest).mono
        (Set.subset_union_right.trans Set.subset_union_right)
  | whileTruth | forNext =>
      refine hwaiting rfl (fun _ => Control.noConfusion) ?_ rfl
      exact fun _ hx => .inr ⟨hx.1.elim id id, hx.2⟩
  | whileBody =>
      refine hwaiting rfl (fun _ => Control.noConfusion) ?_ rfl
      exact Set.union_subset (Set.empty_subset _)
        (Set.inter_subset_inter_left _ Set.subset_union_right)
  | forIterator => exact (yields_askNext _ _ _ _).mono Set.subset_union_right
  | forBody =>
      exact (yields_askNext _ _ _ _).mono (Set.inter_subset_inter_left _ Set.subset_union_right)
  | giveBack => exact .ended Set.subset_union_right (fun _ _ => Outcome.noConfusion) rfl
  | items | callee => exact yields_gather _ _ _ _ rfl
  | operand => exact yields_applyUnary _ _
  | rightOperand => exact yields_applyBinary _ _ _
  | secondTerm | indexSubscript => exact hdoing (fun _ => Control.noConfusion) subset_rfl
  | receiver => exact yields_useMember _ _ _ _
  | printing => exact yields_printing _ _
  | listText => exact yields_listText _ _
  | pairs => exact yields_comparePairs _
  | seek => exact yields_seek _ _ _ _
  | assertLeft | assertRight => exact .behind (yields_askText _ rfl) rfl subset_rfl

theorem signals_bodyOutcome (name : String) (o : Outcome) : (bodyOutcome name o).signals = ∅ := by
  cases o <;> rfl

/-- A frame that takes up no outcome but values passes on all others. -/
theorem signals_passed {o : Outcome} {f : Frame} (hplain : f.isLeaving = false)
    (htakes : f.takesUp o = false) : o.signals ⊆ f.passed o.signals := by
  cases f with
  | leaveFunction name => exact nomatch hplain
  | program rest env =>
      cases o with
      | returned v => exact nomatch htakes
      | left | skipped => exact fun x hx => ⟨.inl hx, fun heq => nomatch hx.symm.trans heq⟩
      | value v | failed f => exact Set.empty_subset _
  | whileBody condition body env | forBody iterator item body env =>
      cases o with
      | returned v => exact fun x hx => ⟨.inl hx, hx⟩
      | left | skipped => exact nomatch htakes
      | value v | failed f => exact Set.empty_subset _
  | block rest env | branchCondition body rest otherwise env | branchTruth body rest otherwise env
  | whileCondition condition body env | whileTruth condition body env | forSource item body env
  | forIterator item body env | forNext iterator item body env | giveBack =>
      exact Set.subset_union_left
  | _ => exact subset_rfl

/-- A frame that is taken off passes on the signals it takes up no more. -/
theorem gives_resume (t : Task) (s : Store) (o : Outcome) (f : Frame) :
    (t.resume s o f).1.Gives allowed t.frames (f.passed o.signals) := by
  have hended : ∀ (u : Task) (o' : Outcome) {σ : Set Signal}, u.frames = t.frames →
      o'.signals ⊆ σ → (u.doing (.outcome o')).Gives allowed t.frames σ :=
    fun u o' _ hframes hsignals => ⟨[], hframes, trivial, hsignals⟩
  generalize hr : t.resume s o f = r
  cases resume_form hr with
  | exited o position outer =>
      unfold exited
      dsimp only
      split
      · exact hended _ _ rfl (Set.empty_subset _)
      · exact hended _ _ rfl subset_rfl
  | leftHook | leftInstance => exact hended _ _ rfl subset_rfl
  | returned => cases o <;> exact hended _ _ rfl subset_rfl
  | leftFunction _ name => exact hended _ _ rfl (signals_bodyOutcome name o).subset
  | programReturned | programFailed => exact hended _ _ rfl (Set.empty_subset _)
  | programEnds env h =>
      refine hended _ _ rfl fun x hx => ⟨.inl hx, fun heq => ?_⟩
      obtain rfl : x = .returned := heq
      cases o with
      | returned v => exact h v rfl
      | _ => exact nomatch hx
  | programNext first rest env =>
      exact ⟨[.program rest env], rfl, ⟨trivial, trivial⟩, fun x hx => ⟨.inr hx.1, hx.2⟩⟩
  | value v hplain h => exact (yields_value h).gives
  | leftWhile | leftFor => exact hended _ _ rfl (Set.empty_subset _)
  | againWhile condition body env =>
      refine ⟨[.whileCondition condition body env], rfl, ⟨trivial, trivial⟩, ?_⟩
      exact Set.union_subset (Set.empty_subset _)
        (Set.inter_subset_inter_left _ Set.subset_union_right)
  | againFor iterator item body env =>
      exact (yields_askNext iterator item body env).gives.mono
        (Set.inter_subset_inter_left _ Set.subset_union_right)
  | unlocks => exact hended _ _ rfl subset_rfl
  | skips hplain _ htakes => exact hended _ _ rfl (signals_passed hplain htakes)

theorem entered_yields {position : Option Position} {env : Environment} {r : Task × Store}
    (h : Yields allowed τ (t.entered position env) s r) : Yields allowed τ t s r where
  gives := by
    have habove : r.1.Gives allowed ([Frame.leaveNode position t.scope] ++ t.frames) τ := h.gives
    exact habove.down ⟨trivial, trivial⟩
  reports := h.reports
  grows := h.grows

theorem Yields.after {r : Task × Store} (h : Yields allowed τ t s' r)
    (hcells : s'.threads = s.threads) : Yields allowed τ t s r := by
  obtain ⟨hgives, hreports, hgrows⟩ := h
  unfold Tells at hreports
  unfold Store.Grows at hgrows
  rw [hcells] at hreports
  rw [Store.gists_eq hcells] at hgrows
  exact ⟨hgives, hreports, hgrows⟩

theorem threads_refusal (limits : Limits) (t : Task) (s : Store) :
    (t.refusal limits s).2.threads = s.threads :=
  Store.threads_of_settled (Store.settled_of_standing (standing_refusal limits t s))

/-- What a thread does unless it goes on with an outcome. -/
theorem yields_step (limits : Limits) (t : Task) (s : Store) (hc : ∀ o, t.control ≠ .outcome o)
    (hbody : ∀ f id args, t.control = .call (.function f id) args → f.body.emits ⊆ allowed) :
    t.step limits s = (t, s) ∨ Yields allowed t.control.emits t s (t.step limits s) := by
  have hcells := threads_refusal limits t s
  generalize hr : t.step limits s = r
  cases step_form hr with
  | refused _ h =>
      rw [h] at hcells
      exact .inr (.failing _ hcells)
  | expr e env hcontrol h =>
      rw [h] at hcells
      rw [hcontrol]
      exact .inr (entered_yields ((yields_beginExpr _ _).after hcells))
  | stmt stmt env hcontrol h =>
      rw [h] at hcells
      rw [hcontrol]
      exact .inr (entered_yields ((yields_beginStmt _ _).after hcells))
  | block b env hcontrol h =>
      rw [h] at hcells
      rw [hcontrol, Control.emits, Block.emits_eq]
      exact .inr (entered_yields ((yields_beginBlock _ _).after hcells))
  | program statements env hcontrol h =>
      rw [h] at hcells
      rw [hcontrol]
      exact .inr (entered_yields ((yields_beginProgram _ _).after hcells))
  | call callee args hcontrol =>
      rw [hcontrol]
      exact yields_call callee args fun f id hcallee =>
        hbody f id args (by rw [hcontrol, hcallee])
  | hook receiver name args hcontrol =>
      rw [hcontrol]
      exact .inr (yields_callHook _ _ _ _)
  | waits => exact .inl rfl
  | calledOff => exact .inr (.failing _ rfl)
  | awakes => exact .inr (.having _ rfl)
  | joinFailed ids hcontrol hjoined =>
      refine .inr (.ended (Set.empty_subset _) (fun g n hg hn => ?_) rfl)
      obtain rfl := Outcome.failed.inj hg
      obtain ⟨id, hid, htells⟩ := joined?_error hjoined
      obtain rfl := Option.some.inj (hid.symm.trans hn)
      exact htells
  | joined => exact .inr (.answered (a := Store.giveList _ _) rfl)
  | ended o hcontrol => exact absurd hcontrol (hc o)
  | resumed o _ _ hcontrol => exact absurd hcontrol (hc o)

/-- Each step keeps what a thread gives to the frames in `base`. -/
theorem Gives.step {base : List Frame} (h : t.Gives allowed base τ) (hgoing : ¬ t.EndedAt base)
    (limits : Limits) (s : Store)
    (hbody : ∀ f id args, t.control = .call (.function f id) args → f.body.emits ⊆ allowed) :
    (t.step limits s).1.Gives allowed base τ := by
  by_cases houtcome : ∃ o, t.control = .outcome o
  · obtain ⟨o, hcontrol⟩ := houtcome
    obtain ⟨top, hframes, htame, hthrough⟩ := h
    cases top with
    | nil => exact absurd ⟨hframes, o, hcontrol⟩ hgoing
    | cons f top =>
        rw [hcontrol] at htame hthrough
        have hresumed : (Task.resume { t with frames := top ++ base } s o f).1.Gives allowed
            (top ++ base) (f.passed o.signals) := gives_resume _ s o f
        rw [step_resume limits s hcontrol hframes]
        exact (hresumed.down htame.2).mono hthrough
  · rcases yields_step limits t s (fun o ho => houtcome ⟨o, ho⟩) hbody with hsame | hyields
    · rw [hsame]
      exact h
    · exact h.trans hyields.gives

/-- What a thread gives to the frames in `base` stays the same on its way. -/
theorem Proceeds.gives {limits : Limits} {base : List Frame} {u : Task}
    (h : t.Proceeds limits base u) (ht : t.Gives Set.univ base τ) : u.Gives Set.univ base τ := by
  induction h with
  | begins => exact ht
  | goesOn s _ hgoing ih => exact ih.step hgoing limits s fun _ _ _ _ => Set.subset_univ _

end Task

end Scriptlet
