/-
Signals: what statements can have instead of a value or a failure, to leave a
function, a loop or one round of a loop.  What code can signal is read off it,
frames pass signals on or take them up, and what is above some frames gives them
the signals that come through.
-/
import Mathlib.Data.Set.Basic
import Scriptlet.Proofs.Turns

namespace Scriptlet

/-- What leaves a function, a loop, or one round of a loop. -/
inductive Signal where
  | returned | left | skipped
deriving DecidableEq

/-- The signals that an outcome is: one, or none for a value or a failure. -/
def Outcome.signals : Outcome → Set Signal
  | .value _ | .failed _ => ∅
  | .returned _ => {.returned}
  | .left => {.left}
  | .skipped => {.skipped}

/-- An outcome that is no signal is a value or a failure. -/
theorem Outcome.value_or_failed {o : Outcome} (h : o.signals ⊆ ∅) :
    (∃ v, o = .value v) ∨ ∃ f, o = .failed f := by
  cases o with
  | value v => exact .inl ⟨v, rfl⟩
  | failed f => exact .inr ⟨f, rfl⟩
  | returned v => exact absurd (h rfl) (Set.notMem_empty Signal.returned)
  | left => exact absurd (h rfl) (Set.notMem_empty Signal.left)
  | skipped => exact absurd (h rfl) (Set.notMem_empty Signal.skipped)

mutual

/-- The signals that a block can give. -/
def Block.emits : Block → Set Signal
  | .mk _ statements => stmtsEmit statements

/-- The signals that statements can give. -/
def stmtsEmit : List Stmt → Set Signal
  | [] => ∅
  | s :: ss => s.emits ∪ stmtsEmit ss

/-- The signals that a branch can give. -/
def Branch.emits : Branch → Set Signal
  | .mk _ _ body => body.emits

def branchesEmit : List Branch → Set Signal
  | [] => ∅
  | b :: bs => b.emits ∪ branchesEmit bs

/-- The signals that a statement can give.  A loop takes up those that leave a
loop or a round of it. -/
def Stmt.emits : Stmt → Set Signal
  | .expr _ _ _ | .assign _ _ _ | .store _ _ _ _ _ | .declare _ | .classDef _ _ _ _ => ∅
  | .choose _ branches none => branchesEmit branches
  | .choose _ branches (some b) => branchesEmit branches ∪ b.emits
  | .repeatWhile _ _ body | .forEach _ _ _ body => body.emits ∩ {.returned}
  | .giveBack _ _ => {.returned}
  | .leave _ => {.left}
  | .skip _ => {.skipped}

end

/-- The signals of what branches leave over. -/
def otherwiseEmit : Option Block → Set Signal
  | none => ∅
  | some b => b.emits

/-- The signals that something about to be done can give.  A program takes up
what returns from it. -/
def Control.emits : Control → Set Signal
  | .stmt s _ => s.emits
  | .block b _ => b.emits
  | .program statements _ => stmtsEmit statements \ {.returned}
  | .outcome o => o.signals
  | .expr _ _ | .call _ _ | .hook _ _ _ | .asleep _ | .joining _ => ∅

theorem Block.emits_eq (b : Block) : b.emits = stmtsEmit b.statements := by
  cases b
  rfl

theorem Stmt.emits_choose (p : Position) (branches : List Branch) (otherwise : Option Block) :
    (Stmt.choose p branches otherwise).emits = branchesEmit branches ∪ otherwiseEmit otherwise := by
  cases otherwise with
  | none => exact (Set.union_empty _).symm
  | some b => rfl

/-- The signals that a frame can give when its outcome is a value, a failure or
one of some signals: calls of functions take up all of them, and rounds of loops
those that leave a loop or a round. -/
def Frame.passed (σ : Set Signal) : Frame → Set Signal
  | .leaveFunction _ => ∅
  | .block rest _ => σ ∪ stmtsEmit rest
  | .program rest _ => (σ ∪ stmtsEmit rest) \ {.returned}
  | .branchCondition body rest otherwise _ | .branchTruth body rest otherwise _ =>
    σ ∪ (body.emits ∪ (branchesEmit rest ∪ otherwiseEmit otherwise))
  | .whileCondition _ body _ | .whileTruth _ body _ | .forSource _ body _ | .forIterator _ body _
  | .forNext _ _ body _ => σ ∪ body.emits ∩ {.returned}
  | .whileBody _ body _ | .forBody _ _ body _ => (σ ∪ body.emits) ∩ {.returned}
  | .giveBack => σ ∪ {.returned}
  | _ => σ

theorem Frame.passed_mono {σ τ : Set Signal} (h : σ ⊆ τ) (f : Frame) : f.passed σ ⊆ f.passed τ := by
  cases f with
  | leaveFunction name => exact subset_rfl
  | block rest env | giveBack | branchCondition body rest otherwise env
  | branchTruth body rest otherwise env | whileCondition condition body env
  | whileTruth condition body env | forSource item body env | forIterator item body env
  | forNext iterator item body env => exact Set.union_subset_union_left _ h
  | program rest env => exact fun _ hx => ⟨Set.union_subset_union_left _ h hx.1, hx.2⟩
  | whileBody condition body env | forBody iterator item body env =>
      exact Set.inter_subset_inter_left _ (Set.union_subset_union_left _ h)
  | _ => exact h

def through : List Frame → Set Signal → Set Signal
  | [], σ => σ
  | f :: rest, σ => through rest (f.passed σ)

theorem through_append (top base : List Frame) (σ : Set Signal) :
    through (top ++ base) σ = through base (through top σ) := by
  induction top generalizing σ with
  | nil => rfl
  | cons f top ih => exact ih (f.passed σ)

theorem through_mono {σ τ : Set Signal} (h : σ ⊆ τ) (frames : List Frame) :
    through frames σ ⊆ through frames τ := by
  induction frames generalizing σ τ with
  | nil => exact h
  | cons f rest ih => exact ih (f.passed_mono h)

/-- Whether a frame may get some signals: the body of a function may give those
in `allowed` only. -/
def Frame.Admits (allowed σ : Set Signal) : Frame → Prop
  | .leaveFunction _ => σ ⊆ allowed
  | _ => True

/-- Whether the signals that come to some frames are such as each may get. -/
def Tame (allowed : Set Signal) : List Frame → Set Signal → Prop
  | [], _ => True
  | f :: rest, σ => f.Admits allowed σ ∧ Tame allowed rest (f.passed σ)

section

variable {allowed σ τ : Set Signal}

theorem Frame.Admits.mono {f : Frame} (h : f.Admits allowed τ) (hle : σ ⊆ τ) :
    f.Admits allowed σ := by
  cases f with
  | leaveFunction name => exact hle.trans h
  | _ => trivial

theorem Frame.admits_of_plain {f : Frame} (h : f.isLeaving = false) : f.Admits allowed σ := by
  cases f with
  | leaveFunction name => exact nomatch h
  | _ => trivial

theorem Tame.mono {frames : List Frame} (h : Tame allowed frames τ) (hle : σ ⊆ τ) :
    Tame allowed frames σ := by
  induction frames generalizing σ τ with
  | nil => trivial
  | cons f rest ih => exact ⟨h.1.mono hle, ih h.2 (f.passed_mono hle)⟩

theorem Tame.append {top base : List Frame} (h : Tame allowed top σ)
    (hbase : Tame allowed base (through top σ)) : Tame allowed (top ++ base) σ := by
  induction top generalizing σ with
  | nil => exact hbase
  | cons f top ih => exact ⟨h.1, ih h.2 hbase⟩

end

namespace Task

/-- Whether the frames of a thread lie on those in `base`, to which it gives at
most the signals in `τ`, and no function above gets a signal from its body that
is not allowed. -/
def Gives (allowed : Set Signal) (base : List Frame) (τ : Set Signal) (t : Task) : Prop :=
  ∃ top, t.frames = top ++ base ∧ Tame allowed top t.control.emits ∧ through top t.control.emits ⊆ τ

variable {allowed σ τ : Set Signal} {base : List Frame} {t u : Task}

theorem Gives.refl (allowed : Set Signal) (t : Task) : t.Gives allowed t.frames t.control.emits :=
  ⟨[], rfl, trivial, subset_rfl⟩

theorem Gives.mono (h : t.Gives allowed base σ) (hle : σ ⊆ τ) : t.Gives allowed base τ := by
  obtain ⟨top, hframes, htame, hthrough⟩ := h
  exact ⟨top, hframes, htame, hthrough.trans hle⟩

/-- What is given to frames comes through them. -/
theorem Gives.down {top : List Frame} (h : u.Gives allowed (top ++ base) σ)
    (htame : Tame allowed top σ) : u.Gives allowed base (through top σ) := by
  obtain ⟨above, hframes, habove, hthrough⟩ := h
  refine ⟨above ++ top, ?_, habove.append (htame.mono hthrough), ?_⟩
  · rw [hframes, List.append_assoc]
  · rw [through_append]
    exact through_mono hthrough top

/-- A thread that goes on from where another stands gives what that one does. -/
theorem Gives.trans (h : t.Gives allowed base τ) (hu : u.Gives allowed t.frames t.control.emits) :
    u.Gives allowed base τ := by
  obtain ⟨top, hframes, htame, hthrough⟩ := h
  rw [hframes] at hu
  exact (hu.down htame).mono hthrough

/-- What a thread with the outcome that frames wait for gives them is that
outcome. -/
theorem Gives.outcome {o : Outcome} (h : t.Gives allowed base τ) (hcontrol : t.control = .outcome o)
    (hframes : t.frames = base) : o.signals ⊆ τ := by
  obtain ⟨top, htop, -, hthrough⟩ := h
  rw [hframes] at htop
  obtain rfl : top = [] := List.self_eq_append_left.mp htop
  rw [hcontrol] at hthrough
  exact hthrough

end Task

end Scriptlet
