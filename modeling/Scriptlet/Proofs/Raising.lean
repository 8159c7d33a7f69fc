/-
Where failures are raised.  While no other thread is there, each frame of a node
is that of a node of the code which was begun at an earlier moment and still goes
on.  A failure is raised at one moment, inside the innermost of these nodes; that
node gives it its place, and the nodes around let it pass as it is.
-/
import Scriptlet.Proofs.Bodies
import Scriptlet.Proofs.Bookkeeping
import Scriptlet.Proofs.NodeSteps
import Scriptlet.Proofs.Sited
import Scriptlet.Proofs.WithinLimits

namespace Scriptlet

namespace World

variable {N : SyntaxNode → Prop} {limits : Limits} {horizon : Nat} {w v u : World} {n : SyntaxNode}
  {before moments : List World} {statements rest : List Stmt} {f g : Failure} {frames : List Frame}
  {t : Task} {e : Event}

/-- In the world `v`, which comes after those in `before`, the evaluation of a node
goes on that was begun above the frames in `below`. -/
def Begun (limits : Limits) (before : List World) (v : World) (n : SyntaxNode)
    (below : List Frame) : Prop :=
  ∃ u ∈ before, (∃ env, u.main.control = n.control env) ∧ u.main.frames = below ∧
    u.Evaluates limits v

theorem Begun.step {below : List Frame} (h : Begun limits before v n below) (halone : v.Alone)
    (habove : v.main.frames ≠ below) : Begun limits (v :: before) (v.move limits e) n below := by
  obtain ⟨u, hu, hcontrol, rfl, hevaluates⟩ := h
  exact ⟨u, List.mem_cons_of_mem _ hu, hcontrol, rfl,
    hevaluates.goesOn e halone fun hended => habove hended.1⟩

/-- Whether some frames have code of some nodes only, and each that leaves a node
leaves one of these, whose evaluation goes on.  The outermost leaves a node. -/
inductive Founded (N : SyntaxNode → Prop) (limits : Limits) (before : List World) (v : World) :
    List Frame → Prop where
  | bottom : Founded N limits before v []
  | node {n : SyntaxNode} {below : List Frame} (outer : Option Environment) (hn : N n)
      (hbegun : Begun limits before v n below) (h : Founded N limits before v below) :
      Founded N limits before v (.leaveNode (some n.position) outer :: below)
  | plain {f : Frame} {below : List Frame} (hf : f.Within N) (hbelow : below ≠ [])
      (h : Founded N limits before v below) : Founded N limits before v (f :: below)

namespace Founded

theorem tail {frame : Frame} (h : Founded N limits before v (frame :: frames)) :
    Founded N limits before v frames := by
  cases h with
  | node _ _ _ h => exact h
  | plain _ _ h => exact h

theorem head {frame : Frame} (h : Founded N limits before v (frame :: frames)) :
    (∃ q outer, frame = .leaveNode q outer) ∨ frame.Within N := by
  cases h with
  | node outer _ _ _ => exact .inl ⟨_, outer, rfl⟩
  | plain hf _ _ => exact .inr hf

/-- Frames that stay are founded after a step. -/
theorem step (h : Founded N limits before v frames) (halone : v.Alone)
    (hframes : frames <:+ v.main.frames) :
    Founded N limits (v :: before) (v.move limits e) frames := by
  induction h with
  | bottom => exact .bottom
  | @node n below outer hn hbegun _ ih =>
      have habove : v.main.frames ≠ below := by
        rintro rfl
        exact Nat.not_succ_le_self _ hframes.length_le
      exact .node outer hn (hbegun.step halone habove) (ih ((List.suffix_cons _ _).trans hframes))
  | plain hf hbelow _ ih => exact .plain hf hbelow (ih ((List.suffix_cons _ _).trans hframes))

theorem append {base above : List Frame} (h : Founded N limits before v base) (hbase : base ≠ [])
    (habove : ∀ f ∈ above, f.Within N) : Founded N limits before v (above ++ base) := by
  induction above with
  | nil => exact h
  | cons f above ih =>
      obtain ⟨hf, hrest⟩ := List.forall_mem_cons.mp habove
      exact .plain hf (List.append_ne_nil_of_right_ne_nil _ hbase) (ih hrest)

end Founded

/-- Whether of some frames the innermost that leaves a node leaves `n`, which was
begun above the frames in `below`. -/
def LeavesFirst (n : SyntaxNode) (below frames : List Frame) : Prop :=
  ∃ above outer, frames = above ++ .leaveNode (some n.position) outer :: below ∧
    ∀ frame ∈ above, ∀ q outer, frame ≠ .leaveNode q outer

theorem not_leavesFirst_nil (n : SyntaxNode) (below : List Frame) : ¬ LeavesFirst n below [] := by
  rintro ⟨above, outer, hframes, -⟩
  exact List.append_ne_nil_of_right_ne_nil _ (List.cons_ne_nil _ _) hframes.symm

/-- What becomes of the place of a failure at a frame: the innermost node gives its
own, and the frames above it leave it alone. -/
theorem LeavesFirst.placing {frame : Frame} {below : List Frame}
    (h : LeavesFirst n below (frame :: frames)) :
    frame.placing .nowhere = n.position ∨
      frame.placing .nowhere = .nowhere ∧ LeavesFirst n below frames := by
  obtain ⟨above, outer, hframes, habove⟩ := h
  cases above with
  | nil =>
      obtain ⟨rfl, -⟩ := List.cons.inj hframes
      exact .inl rfl
  | cons f above =>
      obtain ⟨rfl, hrest⟩ := List.cons.inj hframes
      obtain ⟨hf, hlater⟩ := List.forall_mem_cons.mp habove
      exact .inr ⟨Frame.placing_of_ne hf, above, outer, hrest, hlater⟩

/-- Whether `n` is the innermost node whose evaluation goes on in the world `v`,
which comes after those in `before`. -/
def Innermost (limits : Limits) (before : List World) (v : World) (n : SyntaxNode) : Prop :=
  ∃ below, LeavesFirst n below v.main.frames ∧ Begun limits before v n below

theorem Founded.innermost (h : Founded N limits before v frames) (hne : frames ≠ []) :
    ∃ n below, N n ∧ LeavesFirst n below frames ∧ Begun limits before v n below := by
  induction h with
  | bottom => exact absurd rfl hne
  | @node n below outer hn hbegun _ _ =>
      exact ⟨n, below, hn, ⟨[], outer, rfl, List.forall_mem_nil _⟩, hbegun⟩
  | @plain f below hf hbelow _ ih =>
      obtain ⟨n, base, hn, ⟨above, outer, rfl, habove⟩, hbegun⟩ := ih hbelow
      refine ⟨n, base, hn, ⟨f :: above, outer, rfl, ?_⟩, hbegun⟩
      exact List.forall_mem_cons.mpr ⟨hf.ne_leaveNode, habove⟩

def HasFailure (v : World) (f : Failure) : Prop := v.main.control = .outcome (.failed f)

theorem HasFailure.unique (hf : v.HasFailure f) (hg : v.HasFailure g) : f = g :=
  Outcome.failed.inj (Control.outcome.inj (hf.symm.trans hg))

/-- The failure `f`, which a run has once it has come through the worlds in
`moments`, the latest first, was raised in a node: there was none before the
moment `v`, at which it was there with no place while that node was the innermost
one to go on, and since then it has had the place that it has, or none. -/
structure RaisedAt (limits : Limits) (moments : List World) (f : Failure) (n : SyntaxNode)
    (later : List World) (v : World) (before : List World) : Prop where
  moments_eq : moments = later ++ v :: before
  raised : v.HasFailure (.ofFault f.fault)
  innermost : Innermost limits before v n
  first : ∀ u ∈ before, ∀ g, ¬ u.HasFailure g
  kept : ∀ u ∈ later, ∃ g, u.HasFailure g ∧ g.fault = f.fault ∧
    (g.position = .nowhere ∨ g.position = f.position)

def RaisedIn (limits : Limits) (moments : List World) (f : Failure) (n : SyntaxNode) : Prop :=
  ∃ later v before, RaisedAt limits moments f n later v before

/-- The failure has been passed on to the next moment, and has got a place only if
it had none. -/
theorem RaisedIn.passed (h : RaisedIn limits moments f n) (hu : u.HasFailure g)
    (hfault : g.fault = f.fault) (hposition : f.position = .nowhere ∨ f.position = g.position) :
    RaisedIn limits (u :: moments) g n := by
  obtain ⟨later, v, before, rfl, hraised, hinnermost, hfirst, hkept⟩ := h
  refine ⟨u :: later, v, before, rfl, ?_, hinnermost, hfirst, ?_⟩
  · rw [hfault]
    exact hraised
  · refine List.forall_mem_cons.mpr ⟨⟨g, hu, rfl, .inr rfl⟩, fun x hx => ?_⟩
    obtain ⟨g', hg', hfault', hplace⟩ := hkept x hx
    refine ⟨g', hg', hfault'.trans hfault.symm, ?_⟩
    rcases hposition with hnowhere | hsame
    · rw [hnowhere, or_self] at hplace
      exact .inl hplace
    · rwa [← hsame]

/-- The failure is that a statement of the program was refused, for being one node
too many or since the run was called off. -/
def RefusedEntry (limits : Limits) (statements : List Stmt) (before : List World) (f : Failure) :
    Prop :=
  ∃ u earlier s, before = u :: earlier ∧ s ∈ statements ∧ u.main.control = .stmt s [] ∧
    u.main.frames = [] ∧
    (f = .ofFault (.stepLimit limits.maxSteps) ∨ ∃ reason, f = .ofFault (.cancelled reason))

/-- Whether a failure comes from where the program says: a statement was refused, or
a node has raised it and has given it, or is yet to give it, its place. -/
inductive Explained (N : SyntaxNode → Prop) (limits : Limits) (statements : List Stmt) (v : World)
    (before : List World) (f : Failure) : Prop where
  | refused (hframes : v.main.frames = []) (h : RefusedEntry limits statements before f)
  | raised (n : SyntaxNode) (hn : N n) (h : RaisedIn limits (v :: before) f n)
      (hposition : f.position = n.position ∨
        f.position = .nowhere ∧ ∃ below, LeavesFirst n below v.main.frames)

/-- What is known at every moment of a run of statements, as long as no other thread
is started. -/
structure Chronicle (N : SyntaxNode → Prop) (limits : Limits) (statements : List Stmt) (v : World)
    (before : List World) : Prop where
  alone : v.Alone
  bodies : v.Embodies N
  back : v.main.ComesBackTo [] ⟨none, 0, []⟩
  code : v.main.control.Within N
  founded : Founded N limits before v v.main.frames
  top : v.main.frames = [] →
    (∃ s ∈ statements, v.main.control = .stmt s []) ∨ ∃ o, v.main.control = .outcome o
  first : (∀ f, ¬ v.HasFailure f) → ∀ u ∈ before, ∀ f, ¬ u.HasFailure f
  failed : ∀ f, v.HasFailure f → Explained N limits statements v before f

namespace Chronicle

theorem stride (h : Chronicle N limits statements v before) (hN : SyntaxNode.Closed N)
    (hthreads : v.store.threads.size = 0) :
    v.main.Stride N limits (v.move limits e).main := by
  rw [move_alone h.alone]
  split
  · refine Task.stride_step hN limits hthreads h.code (fun f rest hframes => ?_) ?_
    · have hfounded := h.founded
      rw [hframes] at hfounded
      exact hfounded.head
    · exact fun f id args hcontrol => h.bodies.main.body hcontrol
  · exact .same

/-- Without frames there is no call, hook or sleep that could go on. -/
theorem frames_ne_nil (h : Chronicle N limits statements v before)
    (hnode : ∀ n : SyntaxNode, ∀ env, v.main.control ≠ n.control env)
    (hgoing : ∀ o, v.main.control ≠ .outcome o) : v.main.frames ≠ [] := by
  intro hframes
  rcases h.top hframes with ⟨s, -, hs⟩ | ⟨o, ho⟩
  · exact hnode (.stmt s) [] hs
  · exact hgoing o ho

/-- Below a frame that leaves no node there are others. -/
theorem below_ne_nil (h : Chronicle N limits statements v before) {f : Frame} {below : List Frame}
    (hframes : v.main.frames = f :: below) (hf : f.Within N) : below ≠ [] := by
  have hfounded := h.founded
  rw [hframes] at hfounded
  cases hfounded with
  | node outer _ _ _ => exact absurd rfl (hf.ne_leaveNode _ outer)
  | plain _ hbelow _ => exact hbelow

/-- Frames stay founded: those below, and with them those that are pushed. -/
theorem founded_step (h : Chronicle N limits statements v before)
    (hstride : v.main.Stride N limits t) :
    Founded N limits (v :: before) (v.move limits e) t.frames := by
  have hfounded := h.founded
  have hkept : Founded N limits (v :: before) (v.move limits e) v.main.frames :=
    hfounded.step h.alone (List.suffix_refl _)
  have hrest : ∀ {f : Frame} {rest : List Frame}, v.main.frames = f :: rest →
      Founded N limits (v :: before) (v.move limits e) rest := by
    intro f rest hframes
    rw [hframes] at hkept
    exact hkept.tail
  cases hstride with
  | same => exact hkept
  | refused n env hcontrol fault hfault => exact hkept
  | entered n env hcontrol ht =>
      obtain ⟨-, -, above, hframes, habove⟩ := ht
      have hcode := h.code
      rw [hcontrol] at hcode
      have hgoing : ¬ v.Ended v.main.frames := by
        rintro ⟨-, o, ho⟩
        exact n.control_ne_outcome env o (hcontrol.symm.trans ho)
      have hbegun : Begun limits (v :: before) (v.move limits e) n v.main.frames :=
        ⟨v, List.mem_cons_self, ⟨env, hcontrol⟩, rfl, .goesOn e .begins h.alone hgoing⟩
      rw [hframes]
      exact (Founded.node v.main.scope (Control.of_within_control hcode) hbegun hkept).append
        (List.cons_ne_nil _ _) habove
  | onward hnode hgoing ht =>
      obtain ⟨-, -, above, hframes, habove⟩ := ht
      rw [hframes]
      exact hkept.append (h.frames_ne_nil hnode hgoing) habove
  | resumed o f rest hcontrol ho hframes hf ht =>
      obtain ⟨-, -, above, hframes', habove⟩ := ht
      rw [hframes']
      exact (hrest hframes).append (h.below_ne_nil hframes hf) habove
  | left o q outer rest hcontrol ho hframes hcontrol' hframes' =>
      rw [hframes']
      exact hrest hframes
  | passed f g frame rest hcontrol hframes hcontrol' hframes' hfault hposition =>
      rw [hframes']
      exact hrest hframes

theorem code_step (h : Chronicle N limits statements v before)
    (hstride : v.main.Stride N limits t) : t.control.Within N := by
  cases hstride with
  | same => exact h.code
  | refused n env hcontrol fault hfault => exact trivial
  | entered n env hcontrol ht => exact ht.code
  | onward hnode hgoing ht => exact ht.code
  | resumed o f rest hcontrol ho hframes hf ht => exact ht.code
  | left o q outer rest hcontrol ho hframes hcontrol' hframes' =>
      rw [hcontrol']
      exact trivial
  | passed f g frame rest hcontrol hframes hcontrol' hframes' hfault hposition =>
      rw [hcontrol']
      exact trivial

/-- How a step can lead to where there are no frames: it leaves all as it was, a node
was refused, or an outcome has passed the last frame. -/
theorem stride_nil (h : Chronicle N limits statements v before)
    (hstride : v.main.Stride N limits t) (hframes : t.frames = []) :
    t = v.main ∨
      (∃ n env fault, v.main.control = SyntaxNode.control env n ∧ v.main.Refuses limits fault ∧
        t = v.main.failing fault) ∨
      ∃ o o', v.main.control = .outcome o ∧ t.control = .outcome o' ∧
        ∀ f, o' = .failed f → ∃ g, o = .failed g := by
  have habsurd : ∀ {above base : List Frame}, t.frames = above ++ base → base ≠ [] → False := by
    intro above base heq hbase
    exact List.append_ne_nil_of_right_ne_nil above hbase (heq.symm.trans hframes)
  cases hstride with
  | same => exact .inl rfl
  | refused n env hcontrol fault hfault => exact .inr (.inl ⟨n, env, fault, hcontrol, hfault, rfl⟩)
  | entered n env hcontrol ht =>
      obtain ⟨-, -, above, heq, -⟩ := ht
      exact (habsurd heq (List.cons_ne_nil _ _)).elim
  | onward hnode hgoing ht =>
      obtain ⟨-, -, above, heq, -⟩ := ht
      exact (habsurd heq (h.frames_ne_nil hnode hgoing)).elim
  | resumed o f rest hcontrol ho hframes' hf ht =>
      obtain ⟨-, -, above, heq, -⟩ := ht
      exact (habsurd heq (h.below_ne_nil hframes' hf)).elim
  | left o q outer rest hcontrol ho hframes' hcontrol' _ =>
      exact .inr (.inr ⟨o, o, hcontrol, hcontrol', fun f hf => absurd hf (ho f)⟩)
  | passed f g frame rest hcontrol hframes' hcontrol' _ _ _ =>
      exact .inr (.inr ⟨_, _, hcontrol, hcontrol', fun _ _ => ⟨f, rfl⟩⟩)

theorem top_step (h : Chronicle N limits statements v before)
    (hstride : v.main.Stride N limits t) (hframes : t.frames = []) :
    (∃ s ∈ statements, t.control = .stmt s []) ∨ ∃ o, t.control = .outcome o := by
  rcases h.stride_nil hstride hframes with rfl | ⟨n, env, fault, -, -, rfl⟩ | ⟨o, o', -, ho', -⟩
  · exact h.top hframes
  · exact .inr ⟨_, rfl⟩
  · exact .inr ⟨o', ho'⟩

theorem depth_eq_zero (h : Chronicle N limits statements v before) (hframes : v.main.frames = []) :
    v.main.depth = 0 := by
  obtain ⟨top, htop, hbooks⟩ := h.back
  rw [hframes, List.append_nil] at htop
  rw [← htop] at hbooks
  exact congrArg Books.depth hbooks

/-- A failure that comes up where no node goes on is that a statement was refused; it
is not too deep there. -/
theorem refusedEntry (h : Chronicle N limits statements v before) (hdepth : 0 < limits.maxDepth)
    (hstride : v.main.Stride N limits t) (hnot : ∀ f, ¬ v.HasFailure f)
    (hf : t.control = .outcome (.failed f)) (hframes : t.frames = []) :
    RefusedEntry limits statements (v :: before) f := by
  rcases h.stride_nil hstride hframes with rfl | ⟨n, env, fault, hcontrol, hfault, rfl⟩ |
    ⟨o, o', ho, ho', hfailed⟩
  · exact absurd hf (hnot f)
  · have hnil : v.main.frames = [] := hframes
    obtain rfl : Failure.ofFault fault = f := Outcome.failed.inj (Control.outcome.inj hf)
    rcases h.top hnil with ⟨s, hs, hstmt⟩ | ⟨o, ho⟩
    · refine ⟨v, before, s, rfl, hs, hstmt, hnil, ?_⟩
      cases hfault with
      | tooDeep hdeep =>
          have hzero := h.depth_eq_zero hnil
          omega
      | stepLimit => exact .inl rfl
      | cancelled reason => exact .inr ⟨reason, rfl⟩
    · exact absurd (hcontrol.symm.trans ho) (n.control_ne_outcome env o)
  · obtain ⟨g, rfl⟩ := hfailed f (Control.outcome.inj (ho'.symm.trans hf))
    exact absurd ho (hnot g)

theorem isNew_step (hstride : v.main.Stride N limits t) (hnot : ∀ f, ¬ v.HasFailure f) :
    t.control.IsNew := by
  cases hstride with
  | same =>
      cases hcontrol : v.main.control with
      | outcome o =>
          refine Control.isNew_of_not_failed fun f ho => hnot f ?_
          rw [HasFailure, hcontrol, ho]
      | _ => exact trivial
  | refused n env hcontrol fault hfault => exact rfl
  | entered n env hcontrol ht => exact ht.isNew
  | onward hnode hgoing ht => exact ht.isNew
  | resumed o f rest hcontrol ho hframes hf ht => exact ht.isNew
  | left o q outer rest hcontrol ho hframes hcontrol' hframes' =>
      rw [hcontrol']
      exact Control.isNew_of_not_failed ho
  | passed f g frame rest hcontrol hframes hcontrol' hframes' hfault hposition =>
      exact absurd hcontrol (hnot f)

/-- A failure that was not there before was raised in the innermost node. -/
theorem explained_new (h : Chronicle N limits statements v before) (hdepth : 0 < limits.maxDepth)
    (hstride : v.main.Stride N limits (v.move limits e).main) (hnot : ∀ f, ¬ v.HasFailure f)
    (hf : (v.move limits e).HasFailure f) :
    Explained N limits statements (v.move limits e) (v :: before) f := by
  have hnew := isNew_step hstride hnot
  rw [hf] at hnew
  have hnowhere : f.position = .nowhere := congrArg Failure.position hnew
  have hraised : (v.move limits e).HasFailure (.ofFault f.fault) := by
    rw [← show f = .ofFault f.fault from hnew]
    exact hf
  by_cases hframes : (v.move limits e).main.frames = []
  · exact .refused hframes (h.refusedEntry hdepth hstride hnot hf hframes)
  · obtain ⟨n, below, hn, hleaves, hbegun⟩ := (h.founded_step hstride).innermost hframes
    have hfirst : ∀ x ∈ v :: before, ∀ g, ¬ x.HasFailure g :=
      List.forall_mem_cons.mpr ⟨hnot, h.first hnot⟩
    have hin : RaisedIn limits (v.move limits e :: v :: before) f n :=
      ⟨[], _, _, rfl, hraised, ⟨below, hleaves, hbegun⟩, hfirst, List.forall_mem_nil _⟩
    exact .raised n hn hin (.inr ⟨hnowhere, below, hleaves⟩)

/-- A failure that was there before is the same, where it was. -/
theorem explained_passed (h : Chronicle N limits statements v before)
    (hknown : ∀ n, N n → n.position.isKnown = true) (hgoing : v.main.result? = none)
    (hstride : v.main.Stride N limits u.main) (hf : v.HasFailure f) (hg : u.HasFailure g) :
    Explained N limits statements u (v :: before) g := by
  obtain ⟨hnil, -⟩ | ⟨n, hn, hin, hposition⟩ := h.failed f hf
  · exact absurd ⟨hnil, _, hf⟩ ((Task.result?_eq_none_iff _).mp hgoing)
  · rcases hstride.of_failed hf with hsame | ⟨g', frame, rest, hframes, hg', hrest, hfault, hplace⟩
    · have hf' : u.HasFailure f := by
        rw [HasFailure, hsame]
        exact hf
      obtain rfl := hf'.unique hg
      refine .raised n hn (hin.passed hg rfl (.inr rfl)) ?_
      rw [hsame]
      exact hposition
    · obtain rfl : g' = g := HasFailure.unique hg' hg
      rcases hposition with hplaced | ⟨hnowhere, below, hleaves⟩
      · have hkept : g'.position = f.position := by
          rw [hplace]
          refine frame.placing_of_isKnown ?_
          rw [hplaced]
          exact hknown n hn
        exact .raised n hn (hin.passed hg hfault (.inr hkept.symm)) (.inl (hkept.trans hplaced))
      · rw [hframes] at hleaves
        rw [hnowhere] at hplace
        refine .raised n hn (hin.passed hg hfault (.inl hnowhere)) ?_
        rw [hplace, hrest]
        exact hleaves.placing.imp_right fun hlater => ⟨hlater.1, below, hlater.2⟩

/-- What is known at a moment of a run is known at the next. -/
theorem step (h : Chronicle N limits statements v before) (hN : SyntaxNode.Closed N)
    (hknown : ∀ n, N n → n.position.isKnown = true) (hdepth : 0 < limits.maxDepth)
    (hgoing : v.main.result? = none) (hthreads : (v.move limits e).store.threads.size = 0) :
    Chronicle N limits statements (v.move limits e) (v :: before) := by
  have hle := threads_le_move limits v e
  have hstride : v.main.Stride N limits (v.move limits e).main := h.stride hN (by omega)
  have hback : (v.move limits e).main.ComesBackTo [] ⟨none, 0, []⟩ := by
    rcases main_move limits v e with hmain | ⟨s, hmain⟩
    · rw [hmain]
      exact h.back
    · rw [hmain]
      exact h.back.turn ((Task.result?_eq_none_iff _).mp hgoing) (Task.turn_step limits v.main s)
  refine ⟨h.alone.move (by omega), h.bodies.move limits e, hback, h.code_step hstride,
    h.founded_step hstride, h.top_step hstride, ?_, ?_⟩
  · intro hnone
    have hnot : ∀ f, ¬ v.HasFailure f := by
      intro f hf
      rcases hstride.of_failed hf with hsame | ⟨g, _, _, -, hg, -⟩
      · refine hnone f ?_
        rw [HasFailure, hsame]
        exact hf
      · exact hnone g hg
    exact List.forall_mem_cons.mpr ⟨hnot, h.first hnot⟩
  · intro f hf
    by_cases hfailed : ∃ g, v.HasFailure g
    · obtain ⟨g, hg⟩ := hfailed
      exact h.explained_passed hknown hgoing hstride hg hf
    · exact h.explained_new hdepth hstride (fun g hg => hfailed ⟨g, hg⟩) hf

/-- The next statement may be turned to where one has a value. -/
theorem next (h : Chronicle N limits statements v before) (hN : SyntaxNode.Closed N) {s : Stmt}
    (hs : s ∈ statements) (hmem : N (.stmt s)) {x : Value}
    (hvalue : v.main.result? = some (.value x)) :
    Chronicle N limits statements (v.doing (.stmt s [])) (v :: before) := by
  obtain ⟨hcontrol, hframes⟩ := Task.result?_eq_some_iff.mp hvalue
  have hnot : ∀ f, ¬ v.HasFailure f := fun f hf => nomatch hcontrol.symm.trans hf
  have hfounded : Founded N limits (v :: before) (v.doing (.stmt s [])) v.main.frames := by
    rw [hframes]
    exact .bottom
  exact ⟨h.alone, h.bodies.doing hN hmem, h.back, hmem, hfounded, fun _ => .inl ⟨s, hs, rfl⟩,
    fun _ => List.forall_mem_cons.mpr ⟨hnot, h.first hnot⟩, fun f hf => nomatch hf⟩

theorem first_statement (hw : w.Alone) (hbodies : w.Embodies N) (hrest : w.main.AtRest)
    (hN : SyntaxNode.Closed N) {s : Stmt} (hs : s ∈ statements) (hmem : N (.stmt s)) :
    Chronicle N limits statements (w.doing (.stmt s [])) [] := by
  have hfounded : Founded N limits [] (w.doing (.stmt s [])) w.main.frames := by
    rw [hrest.1]
    exact .bottom
  exact ⟨hw, hbodies.doing hN hmem, hrest.comesBackTo, hmem, hfounded,
    fun _ => .inl ⟨s, hs, rfl⟩, fun _ => List.forall_mem_nil _, fun f hf => nomatch hf⟩

end Chronicle

end World

end Scriptlet
