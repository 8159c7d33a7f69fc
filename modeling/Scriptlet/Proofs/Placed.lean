/-
Breaks and continues in their places.  Code in which each stands in a loop of
the same body makes no function, method or program end with one: this is kept by
every step, since such a run looks the same in a guise that takes away all other
bodies and all reports of the kind.
-/
import Scriptlet.Proofs.Relabelled
import Scriptlet.Proofs.SignalSteps
import Scriptlet.Proofs.WorldSteps

namespace Scriptlet

mutual

/-- Whether in an expression each break and continue is in a loop of the same
body. -/
def Expr.placed : Expr → Bool
  | .name _ | .int _ _ _ | .float _ _ _ | .str _ _ | .bool _ _ | .null _ => true
  | .list _ items => exprsPlaced items
  | .unary _ _ operand => operand.placed
  | .binary _ _ left right => left.placed && right.placed
  | .call _ callee args => callee.placed && exprsPlaced args
  | .member _ object _ => object.placed
  | .method _ object _ args => object.placed && exprsPlaced args
  | .index _ object subscript => object.placed && subscript.placed
  | .lambda _ _ body => body.placed false

/-- Whether it is so in expressions. -/
def exprsPlaced : List Expr → Bool
  | [] => true
  | e :: es => e.placed && exprsPlaced es

/-- Whether it is so in a block, which is in a loop or not. -/
def Block.placed (inLoop : Bool) : Block → Bool
  | .mk _ statements => stmtsPlaced inLoop statements

/-- Whether it is so in statements. -/
def stmtsPlaced (inLoop : Bool) : List Stmt → Bool
  | [] => true
  | s :: ss => s.placed inLoop && stmtsPlaced inLoop ss

/-- Whether it is so in a branch. -/
def Branch.placed (inLoop : Bool) : Branch → Bool
  | .mk _ condition body => condition.placed && body.placed inLoop

def branchesPlaced (inLoop : Bool) : List Branch → Bool
  | [] => true
  | b :: bs => b.placed inLoop && branchesPlaced inLoop bs

/-- Whether it is so in the body of a function. -/
def Func.placed : Func → Bool
  | .mk _ _ _ _ body => body.placed false

/-- Whether it is so in the bodies of functions. -/
def funcsPlaced : List Func → Bool
  | [] => true
  | f :: fs => f.placed && funcsPlaced fs

/-- Whether it is so in a statement, which is in a loop or not. -/
def Stmt.placed (inLoop : Bool) : Stmt → Bool
  | .expr _ _ value => value.placed
  | .assign _ _ value => value.placed
  | .store _ _ object subscript value => object.placed && subscript.placed && value.placed
  | .choose _ branches none => branchesPlaced inLoop branches
  | .choose _ branches (some b) => branchesPlaced inLoop branches && b.placed inLoop
  | .repeatWhile _ condition body => condition.placed && body.placed true
  | .forEach _ _ source body => source.placed && body.placed true
  | .declare f => f.placed
  | .classDef _ _ _ methods => funcsPlaced methods
  | .giveBack _ none => true
  | .giveBack _ (some e) => e.placed
  | .leave _ | .skip _ => inLoop

end

mutual

theorem Block.emits_of_placed : ∀ b : Block, b.placed false = true → b.emits ⊆ {.returned}
  | .mk _ statements, h => stmtsEmit_of_placed statements h

theorem stmtsEmit_of_placed :
    ∀ ss : List Stmt, stmtsPlaced false ss = true → stmtsEmit ss ⊆ {.returned}
  | [], _ => Set.empty_subset _
  | s :: ss, h => by
      obtain ⟨hs, hss⟩ := Bool.and_eq_true_iff.mp h
      exact Set.union_subset (Stmt.emits_of_placed s hs) (stmtsEmit_of_placed ss hss)

theorem Branch.emits_of_placed : ∀ b : Branch, b.placed false = true → b.emits ⊆ {.returned}
  | .mk _ _ body, h => body.emits_of_placed (Bool.and_eq_true_iff.mp h).2

theorem branchesEmit_of_placed :
    ∀ bs : List Branch, branchesPlaced false bs = true → branchesEmit bs ⊆ {.returned}
  | [], _ => Set.empty_subset _
  | b :: bs, h => by
      obtain ⟨hb, hbs⟩ := Bool.and_eq_true_iff.mp h
      exact Set.union_subset (b.emits_of_placed hb) (branchesEmit_of_placed bs hbs)

/-- A statement that is in no loop, with its breaks and continues in their
places, can give no signal but to return. -/
theorem Stmt.emits_of_placed : ∀ s : Stmt, s.placed false = true → s.emits ⊆ {.returned}
  | .expr _ _ _, _ | .assign _ _ _, _ | .store _ _ _ _ _, _ | .declare _, _
  | .classDef _ _ _ _, _ => Set.empty_subset _
  | .choose _ branches none, h => branchesEmit_of_placed branches h
  | .choose _ branches (some b), h => by
      obtain ⟨hbranches, hb⟩ := Bool.and_eq_true_iff.mp h
      exact Set.union_subset (branchesEmit_of_placed branches hbranches) (b.emits_of_placed hb)
  | .repeatWhile _ _ _, _ | .forEach _ _ _ _, _ => Set.inter_subset_right
  | .giveBack _ _, _ => subset_rfl

end

/-- Bodies with breaks or continues out of place are emptied, failures for these
are made failed assertions, and nothing of the host stays what it is. -/
def Guise.strict : Guise :=
  ⟨id, id, id, id, fun b b' => if b.placed false then b' else .mk .nowhere [], true, (· + 1),
    fun _ h => h⟩

theorem Guise.body_strict {b b' : Block} (h : b.placed false = true) : strict.body b b' = b' :=
  if_pos h

theorem Guise.body_strict_of_not {b b' : Block} (h : b.placed false = false) :
    strict.body b b' = .mk .nowhere [] :=
  if_neg (Bool.eq_false_iff.mp h)

mutual

theorem Expr.recast_strict :
    ∀ e : Expr, e.placed = true → e.recast .strict = e.recast (.ofFile id)
  | .name _, _ | .int _ _ _, _ | .float _ _ _, _ | .str _ _, _ | .bool _ _, _ | .null _, _ => rfl
  | .list _ items, h => by
      rw [Expr.recast, exprsRecast_strict items h]
      rfl
  | .unary _ _ operand, h => by
      rw [Expr.recast, operand.recast_strict h]
      rfl
  | .binary _ _ left right, h => by
      obtain ⟨hleft, hright⟩ := Bool.and_eq_true_iff.mp h
      rw [Expr.recast, left.recast_strict hleft, right.recast_strict hright]
      rfl
  | .call _ callee args, h => by
      obtain ⟨hcallee, hargs⟩ := Bool.and_eq_true_iff.mp h
      rw [Expr.recast, callee.recast_strict hcallee, exprsRecast_strict args hargs]
      rfl
  | .member _ object _, h => by
      rw [Expr.recast, object.recast_strict h]
      rfl
  | .method _ object _ args, h => by
      obtain ⟨hobject, hargs⟩ := Bool.and_eq_true_iff.mp h
      rw [Expr.recast, object.recast_strict hobject, exprsRecast_strict args hargs]
      rfl
  | .index _ object subscript, h => by
      obtain ⟨hobject, hsubscript⟩ := Bool.and_eq_true_iff.mp h
      rw [Expr.recast, object.recast_strict hobject, subscript.recast_strict hsubscript]
      rfl
  | .lambda _ _ body, h => by
      rw [Expr.recast, Guise.body_strict h, body.recast_strict h]
      rfl

theorem exprsRecast_strict :
    ∀ es : List Expr, exprsPlaced es = true → exprsRecast .strict es = exprsRecast (.ofFile id) es
  | [], _ => rfl
  | e :: es, h => by
      obtain ⟨he, hes⟩ := Bool.and_eq_true_iff.mp h
      rw [exprsRecast, e.recast_strict he, exprsRecast_strict es hes]
      rfl

theorem Block.recast_strict {inLoop : Bool} :
    ∀ b : Block, b.placed inLoop = true → b.recast .strict = b.recast (.ofFile id)
  | .mk _ statements, h => by
      rw [Block.recast, stmtsRecast_strict statements h]
      rfl

theorem stmtsRecast_strict {inLoop : Bool} :
    ∀ ss : List Stmt, stmtsPlaced inLoop ss = true →
      stmtsRecast .strict ss = stmtsRecast (.ofFile id) ss
  | [], _ => rfl
  | s :: ss, h => by
      obtain ⟨hs, hss⟩ := Bool.and_eq_true_iff.mp h
      rw [stmtsRecast, s.recast_strict hs, stmtsRecast_strict ss hss]
      rfl

theorem Branch.recast_strict {inLoop : Bool} :
    ∀ b : Branch, b.placed inLoop = true → b.recast .strict = b.recast (.ofFile id)
  | .mk _ condition body, h => by
      obtain ⟨hcondition, hbody⟩ := Bool.and_eq_true_iff.mp h
      rw [Branch.recast, condition.recast_strict hcondition, body.recast_strict hbody]
      rfl

theorem branchesRecast_strict {inLoop : Bool} :
    ∀ bs : List Branch, branchesPlaced inLoop bs = true →
      branchesRecast .strict bs = branchesRecast (.ofFile id) bs
  | [], _ => rfl
  | b :: bs, h => by
      obtain ⟨hb, hbs⟩ := Bool.and_eq_true_iff.mp h
      rw [branchesRecast, b.recast_strict hb, branchesRecast_strict bs hbs]
      rfl

theorem Func.recast_strict : ∀ f : Func, f.placed = true → f.recast .strict = f.recast (.ofFile id)
  | .mk _ _ _ _ body, h => by
      rw [Func.recast, Guise.body_strict h, body.recast_strict h]
      rfl

theorem funcsRecast_strict :
    ∀ fs : List Func, funcsPlaced fs = true → funcsRecast .strict fs = funcsRecast (.ofFile id) fs
  | [], _ => rfl
  | f :: fs, h => by
      obtain ⟨hf, hfs⟩ := Bool.and_eq_true_iff.mp h
      rw [funcsRecast, f.recast_strict hf, funcsRecast_strict fs hfs]
      rfl

/-- A statement with its breaks and continues in their places looks the same
where those out of place are taken away. -/
theorem Stmt.recast_strict {inLoop : Bool} :
    ∀ s : Stmt, s.placed inLoop = true → s.recast .strict = s.recast (.ofFile id)
  | .expr _ _ value, h => by
      rw [Stmt.recast, value.recast_strict h]
      rfl
  | .assign _ _ value, h => by
      rw [Stmt.recast, value.recast_strict h]
      rfl
  | .store _ _ object subscript value, h => by
      obtain ⟨hfirst, hvalue⟩ := Bool.and_eq_true_iff.mp h
      obtain ⟨hobject, hsubscript⟩ := Bool.and_eq_true_iff.mp hfirst
      rw [Stmt.recast, object.recast_strict hobject, subscript.recast_strict hsubscript,
        value.recast_strict hvalue]
      rfl
  | .choose _ branches none, h => by
      rw [Stmt.recast, branchesRecast_strict branches h]
      rfl
  | .choose _ branches (some b), h => by
      obtain ⟨hbranches, hb⟩ := Bool.and_eq_true_iff.mp h
      rw [Stmt.recast, branchesRecast_strict branches hbranches, b.recast_strict hb]
      rfl
  | .repeatWhile _ condition body, h => by
      obtain ⟨hcondition, hbody⟩ := Bool.and_eq_true_iff.mp h
      rw [Stmt.recast, condition.recast_strict hcondition, body.recast_strict hbody]
      rfl
  | .forEach _ _ source body, h => by
      obtain ⟨hsource, hbody⟩ := Bool.and_eq_true_iff.mp h
      rw [Stmt.recast, source.recast_strict hsource, body.recast_strict hbody]
      rfl
  | .declare f, h => by
      rw [Stmt.recast, f.recast_strict h]
      rfl
  | .classDef _ _ _ methods, h => by
      rw [Stmt.recast, funcsRecast_strict methods h]
      rfl
  | .giveBack _ none, _ | .leave _, _ | .skip _, _ => rfl
  | .giveBack _ (some e), h => by
      rw [Stmt.recast, e.recast_strict h]
      rfl

end

/-- A body that stays is one with its breaks and continues in their places. -/
theorem Guise.placed_of_body_strict {b b' : Block} (h : strict.body b b' = b.recast (.ofFile id)) :
    b.placed false = true := by
  cases hplaced : b.placed false with
  | true => rfl
  | false =>
      obtain ⟨p, statements⟩ := b
      rw [body_strict_of_not hplaced, Block.recast] at h
      cases statements with
      | nil => exact nomatch hplaced
      | cons s ss => exact nomatch (Block.mk.inj h).2

namespace Task

variable {limits : Limits} {t : Task} {s : Store}

/-- Whether a thread has only code in it with breaks and continues in their
places, and nothing below to give a break or continue to. -/
structure Placed (t : Task) : Prop where
  same : t.recast .strict .ground = t.recast (.ofFile id) .ground
  gives : t.Gives {.returned} [] {.returned}

theorem Placed.body (h : t.Placed) {f : Closure} {id : Nat} {args : List Value}
    (hcontrol : t.control = .call (.function f id) args) : f.body.placed false = true := by
  have hcall := congrArg Task.control h.same
  simp only [recast, hcontrol, Control.recast] at hcall
  have hfunction := (Value.function.inj (Control.call.inj hcall).1).1
  exact Guise.placed_of_body_strict (congrArg Closure.body hfunction)

theorem Placed.fits (h : t.Placed) :
    t.Fits .strict .ground 0 limits s ∧ t.Fits (.ofFile id) .ground 0 limits s := by
  constructor
  · refine ⟨.inl rfl, .inl ⟨rfl, rfl⟩, .inl rfl, ?_, ?_, ?_, ?_⟩
    · exact fun f id args hcontrol => Guise.body_strict (h.body hcontrol)
    · intro _ f rest hframes hkind
      obtain ⟨top, htop, htame, -⟩ := h.gives
      rw [List.append_nil] at htop
      rw [← htop, hframes] at htame
      have hadmits := htame.1
      cases f with
      | leaveFunction name =>
          constructor <;> intro hcontrol <;> rw [hcontrol] at hadmits
          · exact nomatch hadmits (rfl : Signal.left ∈ Outcome.signals .left)
          · exact nomatch hadmits (rfl : Signal.skipped ∈ Outcome.signals .skipped)
      | _ => exact nomatch hkind
    · exact fun o _ f _ p => located_recast_of_known 0 s (fun _ => rfl) f p
    · exact fun x hasks =>
        World.knows_of_foreign Nat.succ_ne_self (hasks.same h.same) s.outside.host
  · exact (World.fits_ofFile limits ⟨s, t, [], 0⟩).main

theorem Placed.step_gives (h : t.Placed) :
    (t.step limits s).1.Gives {.returned} [] {.returned} := by
  by_cases hended : t.EndedAt []
  · obtain ⟨hframes, o, hcontrol⟩ := hended
    have hsame : t.step limits s = (t, s) := by simp only [step, hcontrol, hframes]
    rw [hsame]
    exact h.gives
  · exact h.gives.step hended limits s fun f id args hcontrol =>
      f.body.emits_of_placed (h.body hcontrol)

end Task

namespace World

variable {terms : Terms} {horizon : Nat} {w v : World}

/-- Whether all that a run holds has breaks and continues in their places, and no
report says otherwise. -/
structure Placed (w : World) : Prop where
  same : w.recast .strict .ground 0 = w.recast (.ofFile id) .ground 0
  gives : ∀ t ∈ w.tasks, t.Gives {.returned} [] {.returned}

theorem Placed.main (h : w.Placed) : w.main.Placed :=
  ⟨congrArg World.main h.same, h.gives w.main List.mem_cons_self⟩

theorem Placed.thread (h : w.Placed) {entry : Nat × Task} (hmem : entry ∈ w.threads) :
    entry.2.Placed := by
  refine ⟨?_, h.gives entry.2 (mem_tasks hmem)⟩
  exact congrArg Prod.snd (List.map_inj_left.mp (congrArg World.threads h.same) entry hmem)

theorem Placed.within (h : w.Placed) (o : Outside) : (w.within o).Placed :=
  ⟨within_alike h.same rfl, h.gives⟩

/-- Whichever thread goes on, breaks and continues stay in their places. -/
theorem Placed.act (h : w.Placed) (limits : Limits) (actor : Option Nat) :
    (w.act limits actor).Placed := by
  have hsits : ∀ g : Guise, g.place .nowhere = .nowhere → Sits g .ground := fun _ h => ⟨h, rfl⟩
  refine ⟨?_, ?_⟩
  · refine act_alike (hsits _ rfl) (hsits _ rfl) ?_ ?_ h.same actor
    · exact ⟨h.main.fits.1, fun entry hmem => (h.thread hmem).fits.1⟩
    · exact ⟨h.main.fits.2, fun entry hmem => (h.thread hmem).fits.2⟩
  · have hthread : ∀ entry ∈ w.threads, entry.2.Gives {.returned} [] {.returned} :=
      fun entry hmem => (h.thread hmem).gives
    have hprogress := progress_act limits w actor
    generalize w.act limits actor = v at hprogress ⊢
    cases hprogress with
    | starts id callee file hcell =>
        refine forall_tasks h.main.gives (List.forall_mem_cons.mpr ⟨?_, hthread⟩)
        exact ⟨[.leaveCall], rfl, ⟨trivial, trivial⟩, Set.empty_subset _⟩
    | ends before id t rest hthreads o hresult =>
        rw [hthreads] at hthread
        obtain ⟨hbefore, hrest⟩ := List.forall_mem_append.mp hthread
        exact forall_tasks h.main.gives
          (List.forall_mem_append.mpr ⟨hbefore, (List.forall_mem_cons.mp hrest).2⟩)
    | thread before id t rest hthreads hgoing =>
        have hmem : (id, t) ∈ w.threads := by
          rw [hthreads]
          exact List.mem_append_right _ List.mem_cons_self
        have ht : t.Placed := h.thread hmem
        rw [hthreads] at hthread
        obtain ⟨hbefore, hrest⟩ := List.forall_mem_append.mp hthread
        exact forall_tasks h.main.gives (List.forall_mem_append.mpr
          ⟨hbefore, List.forall_mem_cons.mpr ⟨ht.step_gives, (List.forall_mem_cons.mp hrest).2⟩⟩)
    | idle => exact h.gives
    | main => exact forall_tasks h.main.step_gives hthread

theorem Placed.step (h : w.Placed) (terms : Terms) : (w.step terms).Placed :=
  (h.within _).act _ _

/-- A statement with its breaks and continues in their places may be turned
to. -/
theorem Placed.doing (h : w.Placed) (hframes : w.main.frames = []) {s : Stmt}
    (hs : s.placed false = true) : (w.doing (.stmt s [])).Placed := by
  have hthreads : ∀ entry ∈ w.threads, entry.2.Gives {.returned} [] {.returned} :=
    fun entry hmem => (h.thread hmem).gives
  refine ⟨?_, forall_tasks ⟨[], hframes, trivial, s.emits_of_placed hs⟩ hthreads⟩
  rw [doing_recast, doing_recast, h.same, Control.recast, Control.recast, s.recast_strict hs]

/-- No report in a run with breaks and continues in their places is of the
kind that is about these. -/
theorem Placed.kind_ne (h : w.Placed) {f : Failure}
    (hresult : w.main.result? = some (.failed f)) : f.kind ≠ .controlFlow := by
  obtain ⟨hcontrol, -⟩ := Task.result?_eq_some_iff.mp hresult
  have hsame := congrArg Task.control h.main.same
  simp only [Task.recast, hcontrol, Control.recast, Outcome.recast, Control.outcome.injEq,
    Outcome.failed.injEq] at hsame
  have hfault := congrArg Failure.fault hsame
  obtain ⟨fault, position, trace, thread⟩ := f
  cases fault with
  | strayBreak callee | strayContinue callee => cases hfault
  | _ => exact FaultKind.noConfusion

theorem Placed.runFrom {statements : List Stmt} {done : List Value} {e : Ending} {f : Failure}
    (hw : w.Placed) (hframes : w.main.frames = []) (hs : stmtsPlaced false statements = true)
    (h : w.runFrom terms horizon done statements = some e) (hf : e.failure = some f) :
    f.kind ≠ .controlFlow := by
  induction statements generalizing w done with
  | nil =>
      obtain rfl := Option.some.inj h
      cases hf
  | cons s rest ih =>
      obtain ⟨hfirst, hrest⟩ := Bool.and_eq_true_iff.mp hs
      unfold World.runFrom at h
      cases heval : w.evalStmt terms horizon s with
      | none =>
          rw [heval] at h
          cases h
      | some r =>
          obtain ⟨o, v⟩ := r
          have hv : v.Placed :=
            finish_keeps (fun w _ hw => hw.step terms) (hw.doing hframes hfirst) heval
          have hresult := finish_ended heval
          obtain ⟨hcontrol, hended⟩ := Task.result?_eq_some_iff.mp hresult
          have hsignals : o.signals ⊆ {.returned} := hv.main.gives.outcome hcontrol hended
          rw [heval] at h
          cases o with
          | value x => exact ih hv hended hrest h
          | returned x =>
              obtain rfl := Option.some.inj h
              cases hf
          | failed g =>
              obtain rfl := Option.some.inj h
              obtain rfl := Option.some.inj hf
              exact hv.kind_ne hresult
          | left => cases hsignals (rfl : Signal.left ∈ Outcome.signals .left)
          | skipped => cases hsignals (rfl : Signal.skipped ∈ Outcome.signals .skipped)

theorem placed_initial (file : String) : (ofStore .initial file).Placed := by
  refine ⟨?_, forall_tasks ⟨[], rfl, trivial, Set.empty_subset _⟩ (List.forall_mem_nil _)⟩
  have hstrict := Store.initial_recast .strict rfl
  have hfile := Store.initial_recast (.ofFile id) rfl
  simp only [World.recast, ofStore, hstrict, hfile]
  rfl

/-- Signals stay where they belong.  Whatever frames wait for the outcome and
whatever other threads do meanwhile, evaluating an expression, calling a value
and calling a hook end with a value or a failure, and a loop does not end with a
break or continue.  A program in which each break and continue is in a loop of
the same body does not fail for one, in whatever order its threads go on and
whatever the surroundings are like. -/
theorem signals_stay_in_place :
    (∀ (limits : Limits) (t u : Task) (e : Expr) (env : Environment) (o : Outcome),
      t.control = .expr e env → t.Proceeds limits t.frames u → u.frames = t.frames →
      u.control = .outcome o → (∃ v, o = .value v) ∨ ∃ f, o = .failed f) ∧
    (∀ (limits : Limits) (t u : Task) (callee : Value) (args : List Value) (o : Outcome),
      t.control = .call callee args → t.Proceeds limits t.frames u → u.frames = t.frames →
      u.control = .outcome o → (∃ v, o = .value v) ∨ ∃ f, o = .failed f) ∧
    (∀ (limits : Limits) (t u : Task) (receiver : Value) (name : String) (args : List Value)
      (o : Outcome), t.control = .hook receiver name args → t.Proceeds limits t.frames u →
      u.frames = t.frames → u.control = .outcome o → (∃ v, o = .value v) ∨ ∃ f, o = .failed f) ∧
    (∀ (limits : Limits) (t u : Task) (p : Position) (condition : Expr) (body : Block)
      (env : Environment), t.control = .stmt (.repeatWhile p condition body) env →
      t.Proceeds limits t.frames u → u.frames = t.frames →
      u.control ≠ .outcome .left ∧ u.control ≠ .outcome .skipped) ∧
    (∀ (limits : Limits) (t u : Task) (p : Position) (item : Ident) (source : Expr) (body : Block)
      (env : Environment), t.control = .stmt (.forEach p item source body) env →
      t.Proceeds limits t.frames u → u.frames = t.frames →
      u.control ≠ .outcome .left ∧ u.control ≠ .outcome .skipped) ∧
    (∀ (terms : Terms) (horizon : Nat) (file : String) (p : Program) (e : Ending) (f : Failure),
      stmtsPlaced false p.statements = true →
      (ofStore .initial file).run terms horizon p = some e → e.failure = some f →
      f.kind ≠ .controlFlow) := by
  -- Parts one to five: what a node gives is bounded by what its code emits.
  have hgives : ∀ {limits : Limits} {t u : Task}, t.Proceeds limits t.frames u →
      u.Gives Set.univ t.frames t.control.emits :=
    fun h => h.gives (.refl Set.univ _)
  have hplain : ∀ {limits : Limits} {t u : Task} {o : Outcome}, t.control.emits = ∅ →
      t.Proceeds limits t.frames u → u.frames = t.frames → u.control = .outcome o →
      (∃ v, o = .value v) ∨ ∃ f, o = .failed f := by
    intro limits t u o hemits hu hframes ho
    have hsignals := (hgives hu).outcome ho hframes
    rw [hemits] at hsignals
    exact Outcome.value_or_failed hsignals
  have hloop : ∀ {limits : Limits} {t u : Task}, t.control.emits ⊆ {.returned} →
      t.Proceeds limits t.frames u → u.frames = t.frames →
      u.control ≠ .outcome .left ∧ u.control ≠ .outcome .skipped := by
    intro limits t u hemits hu hframes
    constructor <;> intro hcontrol <;> have hsignals := (hgives hu).outcome hcontrol hframes
    · exact nomatch hemits (hsignals rfl)
    · exact nomatch hemits (hsignals rfl)
  refine ⟨?_, ?_, ?_, ?_, ?_, ?_⟩
  · intro limits t u e env o ht
    exact hplain (by rw [ht]; rfl)
  · intro limits t u callee args o ht
    exact hplain (by rw [ht]; rfl)
  · intro limits t u receiver name args o ht
    exact hplain (by rw [ht]; rfl)
  · intro limits t u p condition body env ht
    exact hloop (by rw [ht]; exact Set.inter_subset_right)
  · intro limits t u p item source body env ht
    exact hloop (by rw [ht]; exact Set.inter_subset_right)
  -- The sixth part is about all threads, whose code is placed wherever it is.
  · intro terms horizon file p e f hp hrun hf
    rw [run_eq] at hrun
    have hopened : ((ofStore .initial file).opened p).Placed := by
      unfold opened
      split <;> exact placed_initial _
    have hframes : ((ofStore .initial file).opened p).main.frames = [] := by
      unfold opened
      split <;> rfl
    exact hopened.runFrom hframes hp hrun hf

/-- A loop that is left in its first round. -/
def leaving : Stmt :=
  .repeatWhile .nowhere (.bool .nowhere true)
    (.mk .nowhere [.choose .nowhere [.mk .nowhere (.bool .nowhere true)
      (.mk .nowhere [.leave .nowhere])] none])

/-- A loop over a list that skips its rounds. -/
def skipping : Stmt :=
  .forEach .nowhere ⟨"x", .nowhere⟩ (.list .nowhere [.bool .nowhere true])
    (.mk .nowhere [.skip .nowhere])

theorem signals_stay_in_place_leaving :
    let w := ofStore .initial "main"
    let unknown : Expr := .name ⟨"y", .nowhere⟩
    let terms : Terms := .bare ⟨100, 0⟩
    (∃ o v, w.evalExpr terms 10 unknown = some (o, v) ∧
      ((∃ v, o = .value v) ∨ ∃ f, o = .failed f)) ∧
    (∃ o v, (w.doing (.call .null [])).finish terms 10 = some (o, v) ∧
      ((∃ v, o = .value v) ∨ ∃ f, o = .failed f)) ∧
    (∃ o v, (w.doing (.hook .null "__bool__" [])).finish terms 10 = some (o, v) ∧
      ((∃ v, o = .value v) ∨ ∃ f, o = .failed f)) ∧
    (∃ o v, w.evalStmt terms 100 leaving = some (o, v) ∧ o ≠ .left ∧ o ≠ .skipped) ∧
    (∃ o v, w.evalStmt terms 100 skipping = some (o, v) ∧ o ≠ .left ∧ o ≠ .skipped) ∧
    ∃ e f, w.run terms 100 ⟨"", [leaving, skipping, .expr .nowhere "y" unknown]⟩ = some e ∧
      e.failure = some f ∧ f.kind ≠ .controlFlow := by
  intro w unknown terms
  obtain ⟨hexpr, hcall, hhook, hwhile, hfor, hrun⟩ := signals_stay_in_place
  have hends : ∀ (c : Control) (horizon : Nat),
      ((w.doing c).finish terms horizon).isSome = true →
      ∃ o v, (w.doing c).finish terms horizon = some (o, v) ∧
        (w.doing c).main.Proceeds ⟨100, 0⟩ [] v.main ∧ v.main.frames = [] ∧
        v.main.control = .outcome o := by
    intro c horizon hsome
    obtain ⟨⟨o, v⟩, hfinish⟩ := Option.isSome_iff_exists.mp hsome
    obtain ⟨hcontrol, hframes⟩ := Task.result?_eq_some_iff.mp (finish_ended hfinish)
    exact ⟨o, v, hfinish, finish_proceeds .begins hfinish, hframes, hcontrol⟩
  have hunknown := hends (.expr unknown []) 10 (by decide +kernel)
  have hnull := hends (.call .null []) 10 (by decide +kernel)
  have htruth := hends (.hook .null "__bool__" []) 10 (by decide +kernel)
  have hleaving := hends (.stmt leaving []) 100 (by decide +kernel)
  have hskipping := hends (.stmt skipping []) 100 (by decide +kernel)
  have hfails : (w.run terms 100 ⟨"", [leaving, skipping, .expr .nowhere "y" unknown]⟩).any
      (fun e => e.failure.isSome) = true := by decide +kernel
  refine ⟨?_, ?_, ?_, ?_, ?_, ?_⟩
  · obtain ⟨o, v, hfinish, hv, hframes, ho⟩ := hunknown
    exact ⟨o, v, hfinish,
      hexpr ⟨100, 0⟩ (w.doing (.expr unknown [])).main v.main _ _ o rfl hv hframes ho⟩
  · obtain ⟨o, v, hfinish, hv, hframes, ho⟩ := hnull
    exact ⟨o, v, hfinish,
      hcall ⟨100, 0⟩ (w.doing (.call .null [])).main v.main _ _ o rfl hv hframes ho⟩
  · obtain ⟨o, v, hfinish, hv, hframes, ho⟩ := htruth
    exact ⟨o, v, hfinish,
      hhook ⟨100, 0⟩ (w.doing (.hook .null "__bool__" [])).main v.main _ _ _ o rfl hv hframes ho⟩
  · obtain ⟨o, v, hfinish, hv, hframes, ho⟩ := hleaving
    obtain ⟨hleft, hskipped⟩ :=
      hwhile ⟨100, 0⟩ (w.doing (.stmt leaving [])).main v.main _ _ _ _ rfl hv hframes
    rw [ho] at hleft hskipped
    exact ⟨o, v, hfinish, fun h => hleft (congrArg _ h), fun h => hskipped (congrArg _ h)⟩
  · obtain ⟨o, v, hfinish, hv, hframes, ho⟩ := hskipping
    obtain ⟨hleft, hskipped⟩ :=
      hfor ⟨100, 0⟩ (w.doing (.stmt skipping [])).main v.main _ _ _ _ _ rfl hv hframes
    rw [ho] at hleft hskipped
    exact ⟨o, v, hfinish, fun h => hleft (congrArg _ h), fun h => hskipped (congrArg _ h)⟩
  · obtain ⟨e, he, hsome⟩ := (Option.any_eq_true _ _).mp hfails
    obtain ⟨f, hf⟩ := Option.isSome_iff_exists.mp hsome
    exact ⟨e, f, he, hf, hrun terms 100 "main" _ e f rfl he hf⟩

end World

end Scriptlet
