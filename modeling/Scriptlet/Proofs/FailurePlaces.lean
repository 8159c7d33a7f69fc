/-
The places of failures.  A program that was read from a source and ends with a
failure, with no thread started, names the place of the node in which the failure
was raised: also where a limit was exceeded, an operation refused its arguments, the
surroundings failed it or it was called off, and whatever nodes the failure has
passed since.
-/
import Scriptlet.Proofs.Characters
import Scriptlet.Proofs.Raising

namespace Scriptlet

namespace World

variable {N : SyntaxNode → Prop} {limits : Limits} {terms : Terms} {horizon : Nat}
  {w v : World} {before : List World} {statements rest : List Stmt} {f : Failure} {e : Ending}

theorem RunsThrough.chronicle (hN : SyntaxNode.Closed N)
    (hknown : ∀ n, N n → n.position.isKnown = true) (hdepth : 0 < terms.maxDepth)
    (hw : w.Alone) (hbodies : w.Embodies N) (hrest : w.main.AtRest)
    (hstatements : ∀ s ∈ statements, N (.stmt s))
    (h : w.RunsThrough terms statements (v :: before) rest) (hthreads : v.store.threads.size = 0) :
    Chronicle N terms.toLimits statements v before ∧ rest ⊆ statements := by
  generalize hmoments : v :: before = moments at h
  induction h generalizing v before with
  | @first s rest hfirst =>
      obtain ⟨rfl, rfl⟩ := List.cons.inj hmoments
      have hs : s ∈ statements := hfirst ▸ List.mem_cons_self
      refine ⟨.first_statement hw hbodies hrest hN hs (hstatements s hs), ?_⟩
      rw [hfirst]
      exact List.subset_cons_self _ _
  | @goesOn u before' rest _ hgoing ih =>
      obtain ⟨rfl, rfl⟩ := List.cons.inj hmoments
      have hle := threads_le_move terms.toLimits u (terms.feed u)
      rw [step] at hthreads
      obtain ⟨hu, hleft⟩ := ih (by omega) rfl
      exact ⟨hu.step hN hknown hdepth hgoing hthreads, hleft⟩
  | @next u before' s rest x _ hvalue ih =>
      obtain ⟨rfl, rfl⟩ := List.cons.inj hmoments
      have hu : u.store.threads.size = 0 := hthreads
      obtain ⟨hu, hleft⟩ := ih hu rfl
      obtain ⟨hs, hrest⟩ := List.cons_subset.mp hleft
      exact ⟨hu.next hN hs (hstatements s hs) hvalue, hrest⟩

/-- How a statement ends with which a program ends for a failure: with that failure,
or with a break or continue that the failure is about. -/
inductive EndsBy (s : Stmt) (f : Failure) : Outcome → Prop where
  | failed : EndsBy s f (.failed f)
  | left (h : f = (Failure.ofFault (.strayBreak none)).locate s.position) : EndsBy s f .left
  | skipped (h : f = (Failure.ofFault (.strayContinue none)).locate s.position) :
      EndsBy s f .skipped

theorem runFrom_failing {done : List Value} {s : Stmt}
    (hrun : w.runFrom terms horizon done (s :: rest) = some e) (hf : e.failure = some f) :
    ∃ o v, w.evalStmt terms horizon s = some (o, v) ∧
      (v = e.world ∧ EndsBy s f o ∨
        ∃ x, o = .value x ∧ v.runFrom terms horizon (x :: done) rest = some e) := by
  unfold runFrom at hrun
  cases heval : w.evalStmt terms horizon s with
  | none =>
      rw [heval] at hrun
      cases hrun
  | some r =>
      obtain ⟨o, v⟩ := r
      rw [heval] at hrun
      refine ⟨o, v, rfl, ?_⟩
      cases o with
      | value x => exact .inr ⟨x, rfl, hrun⟩
      | returned x =>
          obtain rfl := Option.some.inj hrun
          cases hf
      | failed g =>
          obtain rfl := Option.some.inj hrun
          obtain rfl := Option.some.inj hf
          exact .inl ⟨rfl, .failed⟩
      | left =>
          obtain rfl := Option.some.inj hrun
          exact .inl ⟨rfl, .left (Option.some.inj hf).symm⟩
      | skipped =>
          obtain rfl := Option.some.inj hrun
          exact .inl ⟨rfl, .skipped (Option.some.inj hf).symm⟩

/-- A run of statements that ends with a failure leads through the beginning of the
statement that it ends with. -/
theorem RunsThrough.failing {W : World} {done : List Value} {s : Stmt}
    (h : W.RunsThrough terms statements (w.doing (.stmt s []) :: before) rest)
    (hstatements : s :: rest ⊆ statements) (hframes : w.main.frames = [])
    (hrun : w.runFrom terms horizon done (s :: rest) = some e) (hf : e.failure = some f) :
    ∃ u s' before' rest' o, W.RunsThrough terms statements (u :: before') rest' ∧
      s' ∈ statements ∧ u.main.control = .stmt s' [] ∧ u.main.frames = [] ∧
      u.finish terms horizon = some (o, e.world) ∧ EndsBy s' f o := by
  obtain ⟨hs, hrest⟩ := List.cons_subset.mp hstatements
  induction rest generalizing w done s before with
  | nil =>
      obtain ⟨o, v, heval, ⟨rfl, hends⟩ | ⟨x, -, hlater⟩⟩ := runFrom_failing hrun hf
      · exact ⟨_, s, before, [], o, h, hs, rfl, hframes, heval, hends⟩
      · obtain rfl := Option.some.inj hlater
        cases hf
  | cons s' rest ih =>
      obtain ⟨o, v, heval, ⟨rfl, hends⟩ | ⟨x, rfl, hlater⟩⟩ := runFrom_failing hrun hf
      · exact ⟨_, s, before, s' :: rest, o, h, hs, rfl, hframes, heval, hends⟩
      · obtain ⟨before', hv⟩ := h.finish heval
        have hvalue := finish_ended heval
        obtain ⟨-, hnil⟩ := Task.result?_eq_some_iff.mp hvalue
        obtain ⟨hs', hrest'⟩ := List.cons_subset.mp hrest
        exact ih (hv.next hvalue) hrest hnil hlater hs' hrest'

/-- The failure is that the statement `s`, which no node is around, has come to its
end with a break or continue. -/
def StrayFrom (limits : Limits) (before : List World) (v : World) (s : Stmt) (f : Failure) : Prop :=
  Begun limits before v (.stmt s) [] ∧
    (v.main.result? = some .left ∧ f.fault = .strayBreak none ∨
      v.main.result? = some .skipped ∧ f.fault = .strayContinue none)

/-- At the moment when the evaluation of a statement is over, it has begun. -/
theorem Begun.of_finish {u : World} {o : Outcome} {s : Stmt} (hu : u.Alone)
    (hcontrol : u.main.control = .stmt s []) (hframes : u.main.frames = [])
    (hfinish : u.finish terms horizon = some (o, v))
    (hthreads : v.store.threads.size = u.store.threads.size) (hmem : u ∈ v :: before) :
    Begun terms.toLimits before v (.stmt s) [] := by
  have hended := (Task.result?_eq_some_iff.mp (finish_ended hfinish)).1
  have hbefore : u ∈ before := by
    rcases List.mem_cons.mp hmem with rfl | hbefore
    · cases hcontrol.symm.trans hended
    · exact hbefore
  exact ⟨u, hbefore, ⟨[], hcontrol⟩, hframes,
    Evaluates.begins.finish hframes hu hfinish hthreads.le⟩

theorem opened_initial (file : String) (p : Program) :
    ∃ file', (ofStore .initial file).opened p = ofStore .initial file' :=
  ⟨_, opened_eq _ p⟩

end World

/-- However limits are asked for, one node at least may be evaluated. -/
theorem Limits.maxDepth_pos (depth steps : Int) : 0 < (ofNumbers depth steps).maxDepth := by
  unfold ofNumbers
  split
  · dsimp only
    omega
  · exact Nat.succ_pos _

namespace World

variable {terms : Terms} {horizon : Nat} {f : Failure} {e : Ending} {p : Program}

/-- Where a failure comes from with which a run of grounded code ends. -/
theorem run_failure {file : String}
    (hgrounded : ∀ s ∈ p.statements, (SyntaxNode.stmt s).Grounded) (hdepth : 0 < terms.maxDepth)
    (hrun : (ofStore .initial file).run terms horizon p = some e)
    (hthreads : e.world.store.threads.size = 0) (hf : e.failure = some f) :
    ∃ before rest, ((ofStore .initial file).opened p).RunsThrough terms p.statements
        (e.world :: before) rest ∧
      (RefusedEntry terms.toLimits p.statements before f ∨
        (∃ s ∈ p.statements, f.position = s.position ∧
          StrayFrom terms.toLimits before e.world s f) ∨
        ∃ n, p.Has n ∧ f.position = n.position ∧
          RaisedIn terms.toLimits (e.world :: before) f n) := by
  have hknown : ∀ n, p.Has n → n.position.isKnown = true := by
    rintro n ⟨s, hs, hn⟩
    exact hgrounded s hs n hn
  rw [run_eq] at hrun
  obtain ⟨file', hopened⟩ := opened_initial file p
  rw [hopened] at hrun ⊢
  have halone : (ofStore .initial file').Alone := alone_of_unspawned rfl rfl
  have hchronicle : ∀ {v before rest}, (ofStore .initial file').RunsThrough terms
      p.statements (v :: before) rest → v.store.threads.size = 0 →
      Chronicle p.Has terms.toLimits p.statements v before := fun h hzero =>
    (h.chronicle p.closed_has hknown hdepth halone (embodies_initial _ file') ⟨rfl, rfl⟩
      (fun s hs => Program.has_stmt hs) hzero).1
  cases hstatements : p.statements with
  | nil =>
      rw [hstatements] at hrun
      obtain rfl := Option.some.inj hrun
      cases hf
  | cons s rest =>
      have hfirst : (ofStore .initial file').RunsThrough terms p.statements
          [(ofStore .initial file').doing (.stmt s [])] rest := .first hstatements
      rw [hstatements] at hrun
      obtain ⟨u, s', earlier, rest', o, hu, hs', hcontrol, hframes, hfinish, hends⟩ :=
        hfirst.failing (hstatements ▸ List.Subset.refl _) rfl hrun hf
      obtain ⟨before, hended, hsuffix⟩ := hu.later hfinish
      have hzero : u.store.threads.size = 0 := by
        have hle := threads_le_finish hfinish
        omega
      have hresult := finish_ended hfinish
      obtain ⟨hoing, hnil⟩ := Task.result?_eq_some_iff.mp hresult
      have hbegun : Begun terms.toLimits before e.world (.stmt s') [] :=
        .of_finish (hchronicle hu hzero).alone hcontrol hframes hfinish (hthreads.trans hzero.symm)
          (hsuffix.subset List.mem_cons_self)
      refine ⟨before, rest', hstatements ▸ hended, ?_⟩
      -- The statement failed, or it ended with a break or continue, for which a run fails.
      cases hends with
      | failed =>
          rcases (hchronicle hended hthreads).failed f hoing with ⟨-, hrefused⟩ |
            ⟨n, hn, hin, hplace⟩
          · exact .inl (hstatements ▸ hrefused)
          · refine .inr (.inr ⟨n, hn, ?_, hin⟩)
            rcases hplace with hsame | ⟨-, below, hleaves⟩
            · exact hsame
            · rw [hnil] at hleaves
              exact absurd hleaves (not_leavesFirst_nil n below)
      | left h =>
          subst h
          exact .inr (.inl ⟨s', hstatements ▸ hs', rfl, hbegun, .inl ⟨hresult, rfl⟩⟩)
      | skipped h =>
          subst h
          exact .inr (.inl ⟨s', hstatements ▸ hs', rfl, hbegun, .inr ⟨hresult, rfl⟩⟩)

/-- The place of a failure is real, whatever the surroundings do.  A program read from a source
that fails when it is run afresh, and starts no thread, fails either since a statement of it is
refused, for the number of steps or since the run was called off; or in a place of the source.
That is the place of the statement, with none around, that a break or continue came
from; or it is the place of the node of the program that was the innermost to be
evaluated at the moment when the failure was raised.  No other node that the failure
has passed since has given it another place. -/
theorem failures_name_their_places {source : Text} {name file : String} {depth steps : Int}
    {feed : World → Event}
    (hrun : (ofStore .initial file).run { Limits.ofNumbers depth steps with feed } horizon
      ⟨name, (Parser.parse source).1⟩ = some e)
    (hthreads : e.world.store.threads.size = 0) (hf : e.failure = some f) :
    let limits := Limits.ofNumbers depth steps
    let p : Program := ⟨name, (Parser.parse source).1⟩
    ∃ before rest, ((ofStore .initial file).opened p).RunsThrough { limits with feed } p.statements
        (e.world :: before) rest ∧
      (RefusedEntry limits p.statements before f ∨
        1 ≤ f.position.line ∧
          ((∃ s ∈ p.statements, f.position = s.position ∧ StrayFrom limits before e.world s f) ∨
            ∃ n, p.Has n ∧ f.position = n.position ∧ RaisedIn limits (e.world :: before) f n)) := by
  intro limits p
  have hgrounded : ∀ s ∈ p.statements, (SyntaxNode.stmt s).Grounded := Parser.parse_grounded source
  have hline : ∀ {n : SyntaxNode}, p.Has n → f.position = n.position → 1 ≤ f.position.line := by
    rintro n ⟨s, hs, hn⟩ hposition
    have hknown := hgrounded s hs n hn
    rw [← hposition, Position.isKnown, bne_iff_ne] at hknown
    omega
  obtain ⟨before, rest, hthrough, hfrom⟩ :=
    run_failure hgrounded (Limits.maxDepth_pos depth steps) hrun hthreads hf
  refine ⟨before, rest, hthrough, ?_⟩
  rcases hfrom with hrefused | ⟨s, hs, hposition, hstray⟩ | ⟨n, hn, hposition, hraised⟩
  · exact .inl hrefused
  · exact .inr ⟨hline (Program.has_stmt hs) hposition, .inl ⟨s, hs, hposition, hstray⟩⟩
  · exact .inr ⟨hline hn hposition, .inr ⟨n, hn, hposition, hraised⟩⟩

set_option maxRecDepth 10000 in
theorem failures_name_their_places_quotient :
    let source := Text.ofString "x = [1 / 0]"
    let w := ofStore .initial "main"
    let terms := Terms.bare (.ofNumbers 100 0)
    let p : Program := ⟨"", (Parser.parse source).1⟩
    ∃ e f, w.run terms 30 p = some e ∧ e.world.store.threads.size = 0 ∧ e.failure = some f ∧
      f.position = ⟨1, 8⟩ ∧
      ∃ before rest, (w.opened p).RunsThrough terms p.statements (e.world :: before) rest ∧
        ∃ n, p.Has n ∧ n.position = ⟨1, 8⟩ ∧ RaisedIn terms.toLimits (e.world :: before) f n := by
  intro source w terms p
  have hparse : Parser.parse source =
      ([.assign ⟨1, 3⟩ ⟨"x", ⟨1, 1⟩⟩ (.list ⟨1, 5⟩
        [.binary ⟨1, 8⟩ .div (.int ⟨1, 6⟩ "1" 1) (.int ⟨1, 10⟩ "0" 0)])], []) := by
    rw [Parser.parse, Lexer.tokens, Cursor.ofText, Text.chars_ofString]
    cbv
  have hends : (w.run terms 30 p).any (fun e => e.world.store.threads.size = 0 ∧
      e.failure.map Failure.position = some ⟨1, 8⟩) = true := by
    simp only [p, hparse]
    decide +kernel
  obtain ⟨e, hrun, hended⟩ := (Option.any_eq_true _ _).mp hends
  obtain ⟨hthreads, hplace⟩ := of_decide_eq_true hended
  obtain ⟨f, hf, hposition⟩ := Option.map_eq_some_iff.mp hplace
  obtain ⟨before, rest, hthrough, hrefused | ⟨-, ⟨s, hs, hsame, -⟩ | ⟨n, hn, hsame, hraised⟩⟩⟩ :=
    failures_name_their_places hrun hthreads hf
  · obtain ⟨_, _, _, -, -, -, -, rfl | ⟨_, rfl⟩⟩ := hrefused <;> cases hposition
  · rw [hposition] at hsame
    simp only [hparse, List.mem_singleton] at hs
    rw [hs] at hsame
    cases hsame
  · exact ⟨e, f, hrun, hthreads, hf, hposition, before, rest, hthrough, n, hn,
      hsame.symm.trans hposition, hraised⟩

end World

end Scriptlet
