/-
How deep calls of functions and instances nest in a thread: on the way from one
such call to the next the depth is charged, but for an instance that passes its
call on.  The depth that a run is limited to therefore bounds the calls that
are not passed on from one instance to another.
-/
import Scriptlet.Proofs.Moments
import Scriptlet.Proofs.Turns

namespace Scriptlet

/-- What a frame is for the guard of the depth: one that it was charged for, the
call of a function, the call of an instance, which is passed on, or another. -/
inductive FrameKind where
  | charged | function | forwarding | other
deriving DecidableEq

namespace Frame

def kind : Frame → FrameKind
  | .leaveNode _ _ | .leaveHook => .charged
  | .leaveFunction _ => .function
  | .leaveInstance => .forwarding
  | _ => .other

def isCall (f : Frame) : Bool := f.kind = .function || f.kind = .forwarding

theorem kind_of_not_isLeaving {f : Frame} (h : f.isLeaving = false) : f.kind = .other := by
  cases f <;> first | rfl | exact nomatch h

end Frame

/-- Whether the depth was charged since the innermost call of a function or an
instance, if there is one. -/
def Charged : List Frame → Prop
  | [] => True
  | f :: rest => f.kind = .charged ∨ f.kind = .other ∧ Charged rest

/-- Whether the innermost frame is of an instance, which passes its call on. -/
def Forwarding (frames : List Frame) : Prop := ∃ f ∈ frames.head?, f.kind = .forwarding

instance (frames : List Frame) : Decidable (Forwarding frames) :=
  inferInstanceAs (Decidable (∃ f ∈ frames.head?, f.kind = .forwarding))

def charges (frames : List Frame) : Nat := frames.countP fun f => f.kind = .charged

/-- How many calls of functions and instances are going on. -/
def nestedCalls (frames : List Frame) : Nat := frames.countP Frame.isCall

/-- How many calls of instances were passed on to instances. -/
def forwards : List Frame → Nat
  | [] => 0
  | f :: rest => (if f.kind = .forwarding ∧ Forwarding rest then 1 else 0) + forwards rest

/-- How calls nest: the depth was charged before a call, and before what may
make one, unless an instance passed its call on. -/
def Nested : List Frame → Prop
  | [] => True
  | f :: rest =>
    (f.mayCall → Charged rest) ∧ (f.isCall → Charged rest ∨ Forwarding rest) ∧ Nested rest

section

variable (f : Frame) (rest : List Frame)

@[simp] theorem charges_cons :
    charges (f :: rest) = charges rest + if f.kind = .charged then 1 else 0 := by
  simp [charges, List.countP_cons]

@[simp] theorem nestedCalls_cons :
    nestedCalls (f :: rest) = nestedCalls rest + if f.isCall then 1 else 0 :=
  List.countP_cons

@[simp] theorem forwarding_cons : Forwarding (f :: rest) ↔ f.kind = .forwarding := by
  simp [Forwarding]

end

/-- There are two calls for each charge, and those that were passed on, but for
two calls more while the innermost call has no charge yet. -/
theorem nestedCalls_le {frames : List Frame} (h : Nested frames) :
    nestedCalls frames ≤ 2 * charges frames + 2 + forwards frames ∧
    (Forwarding frames → nestedCalls frames ≤ 2 * charges frames + 1 + forwards frames) ∧
    (Charged frames → nestedCalls frames ≤ 2 * charges frames + forwards frames) := by
  induction frames with
  | nil => exact ⟨Nat.zero_le _, fun _ => Nat.zero_le _, fun _ => Nat.zero_le _⟩
  | cons f rest ih =>
      obtain ⟨-, hcall, hrest⟩ := h
      obtain ⟨hall, hforwarding, hcharged⟩ := ih hrest
      simp only [charges_cons, nestedCalls_cons, forwarding_cons, forwards, Charged]
      cases hkind : f.kind with
      | charged =>
          have hnot : f.isCall = false := by simp [Frame.isCall, hkind]
          simp only [hnot]
          refine ⟨?_, nofun, ?_⟩ <;> simp <;> omega
      | other =>
          have hnot : f.isCall = false := by simp [Frame.isCall, hkind]
          simp only [hnot]
          refine ⟨?_, nofun, ?_⟩
          · simpa using hall
          · simpa using hcharged
      | function =>
          have his : f.isCall = true := by simp [Frame.isCall, hkind]
          simp only [his]
          refine ⟨?_, nofun, by simp⟩
          rcases hcall his with hrest | hrest
          · have hle := hcharged hrest
            simp
            omega
          · have hle := hforwarding hrest
            simp
            omega
      | forwarding =>
          have his : f.isCall = true := by simp [Frame.isCall, hkind]
          simp only [his]
          -- A call that is passed on is one more on both sides.
          have hle : nestedCalls rest + 1 ≤
              2 * charges rest + 1 + ((if Forwarding rest then 1 else 0) + forwards rest) := by
            rcases hcall his with hrest | hrest
            · have hle := hcharged hrest
              omega
            · have hle := hforwarding hrest
              rw [if_pos hrest]
              omega
          refine ⟨?_, fun _ => ?_, by simp⟩ <;> simp <;> omega

namespace Control

/-- The frame that a call of a function or an instance, which is about to begin,
is to have. -/
def calling : Control → List Frame
  | .call (.function f _) _ => [.leaveFunction f.name]
  | .call (.instance _) _ => [.leaveInstance]
  | _ => []

def isCharging : Control → Bool
  | .expr _ _ | .stmt _ _ | .block _ _ | .program _ _ | .hook _ _ _ => true
  | _ => false

end Control

namespace Task

/-- The frames of a thread, with that of a call about to begin. -/
def nesting (t : Task) : List Frame := t.control.calling ++ t.frames

/-- Whether the call that a thread is about to make may be made: the depth was
charged, or an instance passes its call on and leads the arguments. -/
def MayCall (t : Task) : Prop :=
  ∀ callee args, t.control = .call callee args →
    Charged t.frames ∨ Forwarding t.frames ∧ ∃ id rest, args = .instance id :: rest

structure Nests (limits : Limits) (t : Task) : Prop where
  depth_eq : t.depth = charges t.frames
  depth_le : t.depth ≤ limits.maxDepth
  nested : Nested t.frames
  mayCall : t.MayCall

variable {limits : Limits} {t u : Task}

theorem mayCall_of_not_isCall (h : t.control.isCall = false) : t.MayCall := by
  intro callee args hcontrol
  rw [hcontrol] at h
  exact nomatch h

/-- Plain frames are neither charged nor of calls. -/
theorem Nests.onward {here : Prop} (h : Onward here t u) (hdepth : t.depth = charges t.frames)
    (hle : t.depth ≤ limits.maxDepth) (hnested : Nested t.frames)
    (hhere : here → Charged t.frames) :
    u.Nests limits := by
  induction h with
  | doing t c hcall =>
      refine ⟨hdepth, hle, hnested, ?_⟩
      intro callee args hcontrol
      have hc : c.isCall = true := by
        change c = _ at hcontrol
        rw [hcontrol]
        rfl
      exact .inl (hhere (hcall hc))
  | @pushed t u f hplain hcall _ ih =>
      have hkind := Frame.kind_of_not_isLeaving hplain
      apply ih
      · change t.depth = charges (f :: t.frames)
        simpa [hkind] using hdepth
      · exact hle
      · refine ⟨fun hmay => hhere (hcall hmay), ?_, hnested⟩
        intro hiscall
        simp [Frame.isCall, hkind] at hiscall
      · exact fun hh => .inr ⟨hkind, hhere hh⟩
  | applying t s callee args site hh =>
      refine ⟨?_, hle, ⟨nofun, nofun, hnested⟩, ?_⟩
      · change t.depth = charges (.leaveCall :: t.frames)
        simpa [Frame.kind] using hdepth
      · exact fun _ _ _ => .inl (.inr ⟨rfl, hhere hh⟩)

/-- A call may be entered only where it may be made. -/
theorem Nests.entering (h : t.Nests limits) {callee : Value} {args : List Value} {f : Frame}
    (hcontrol : t.control = .call callee args) (hkind : f.kind ≠ .charged)
    (hplain : f.mayCall = false) :
    t.depth = charges (f :: t.frames) ∧ Nested (f :: t.frames) := by
  refine ⟨?_, ?_, ?_, h.nested⟩
  · simpa [hkind] using h.depth_eq
  · intro hmay
    exact absurd hmay (by simp [hplain])
  · intro _
    rcases h.mayCall callee args hcontrol with hcharged | ⟨hforwarding, -⟩
    · exact .inl hcharged
    · exact .inr hforwarding

/-- Each step keeps how calls nest. -/
theorem Nests.turn (h : t.Nests limits) (hu : Turn limits t u) : u.Nests limits := by
  have hdepth := h.depth_eq
  have hle := h.depth_le
  cases hu with
  | same => exact h
  | onward hu =>
      refine .onward hu hdepth hle h.nested ?_
      rintro ⟨m, id, rest, hcontrol⟩
      rcases h.mayCall _ _ hcontrol with hcharged | ⟨-, id', rest', hargs⟩
      · exact hcharged
      · exact nomatch hargs
  | entered position env hlt hu =>
      refine .onward hu ?_ hlt ⟨nofun, nofun, h.nested⟩ fun _ => .inl rfl
      change t.depth + 1 = charges (.leaveNode position t.scope :: t.frames)
      simpa [Frame.kind] using hdepth
  | hooked callee receiver args hlt =>
      refine ⟨?_, hlt, ⟨nofun, nofun, h.nested⟩, fun _ _ _ => .inl (.inl rfl)⟩
      change t.depth + 1 = charges (.leaveHook :: t.frames)
      simpa [Frame.kind] using hdepth
  | function f id args env hcontrol =>
      obtain ⟨hcharges, hnested⟩ := h.entering (f := .leaveFunction f.name) hcontrol nofun rfl
      exact ⟨hcharges, hle, hnested, mayCall_of_not_isCall rfl⟩
  | forwarded id args callee hcontrol =>
      obtain ⟨hcharges, hnested⟩ := h.entering (f := .leaveInstance) hcontrol nofun rfl
      refine ⟨hcharges, hle, hnested, ?_⟩
      intro callee' args' hcalled
      obtain ⟨rfl, rfl⟩ := Control.call.inj hcalled
      exact .inr ⟨⟨_, rfl, rfl⟩, id, args, rfl⟩
  | resumed o f rest hcontrol hframes hplain hu =>
      obtain ⟨hmay, -, hnested⟩ : Nested (f :: rest) := hframes ▸ h.nested
      refine .onward hu ?_ hle hnested hmay
      change t.depth = charges rest
      simpa [hframes, Frame.kind_of_not_isLeaving hplain] using hdepth
  | left o o' f rest hcontrol hframes hleaving =>
      obtain ⟨-, -, hnested⟩ : Nested (f :: rest) := hframes ▸ h.nested
      rw [hframes, charges_cons] at hdepth
      have hcharges : (f.unwind t.books).depth = charges rest := by
        cases f with
        | leaveNode position outer | leaveHook =>
            simp [Frame.unwind, books, hdepth, Frame.kind]
        | leaveCall | leaveFunction name | leaveInstance =>
            simpa [Frame.unwind, books, Frame.kind] using hdepth
        | _ => exact nomatch hleaving
      refine ⟨hcharges, ?_, hnested, mayCall_of_not_isCall rfl⟩
      change (f.unwind t.books).depth ≤ limits.maxDepth
      omega

/-- A call about to begin nests like one that goes on. -/
theorem Nests.nesting (h : t.Nests limits) :
    Nested t.nesting ∧ charges t.nesting = t.depth := by
  have hplain : Nested t.frames ∧ charges t.frames = t.depth := ⟨h.nested, h.depth_eq.symm⟩
  unfold Task.nesting Control.calling
  split <;> rename_i hcontrol
  · obtain ⟨hcharges, hnested⟩ := h.entering (f := .leaveFunction _) hcontrol nofun rfl
    exact ⟨hnested, hcharges.symm⟩
  · obtain ⟨hcharges, hnested⟩ := h.entering (f := .leaveInstance) hcontrol nofun rfl
    exact ⟨hnested, hcharges.symm⟩
  · exact hplain

/-- Nothing that is charged for is begun where the depth is used up. -/
theorem step_charging (hcharging : t.control.isCharging = true) (hdepth : t.depth = limits.maxDepth)
    (s : Store) : t.step limits s = (t.failing .tooDeep, s) := by
  have hdeep : limits.maxDepth < t.depth + 1 := by omega
  have hrefusal : t.refusal limits s = (some .tooDeep, s) := if_pos hdeep
  cases hcontrol : t.control with
  | expr e env | stmt st env | block b env | program statements env =>
      simp only [step, hcontrol, hrefusal]
  | hook receiver name args =>
      simp only [step, hcontrol]
      exact if_pos hdeep
  | call callee args | asleep time | joining ids | outcome o =>
      rw [hcontrol] at hcharging
      exact nomatch hcharging

end Task

namespace World

variable {terms : Terms}

/-- At every moment of a run calls nest in all threads as they should. -/
theorem Moment.nests {s : Store} {file : String} {p : Program} {v : World}
    (h : (ofStore s file).Moment terms p v) : ∀ t ∈ v.tasks, t.Nests terms.toLimits := by
  obtain ⟨before, rest, h⟩ := h
  have hidle : ((ofStore s file).opened p).main.Nests terms.toLimits := by
    rw [opened_eq]
    exact ⟨rfl, Nat.zero_le _, trivial, Task.mayCall_of_not_isCall rfl⟩
  have hthreads : ((ofStore s file).opened p).threads = [] := by
    rw [opened_eq]
    rfl
  refine h.tasks (I := Task.Nests terms.toLimits) ?_ ?_ ?_ ?_ v List.mem_cons_self
  · intro t s ht
    exact ht.turn (Task.turn_step _ _ _)
  · intro file s callee
    exact ⟨rfl, Nat.zero_le _, ⟨nofun, nofun, trivial⟩, fun _ _ _ => .inl (.inr ⟨rfl, trivial⟩)⟩
  · intro t s ht
    exact ⟨ht.depth_eq, ht.depth_le, ht.nested, Task.mayCall_of_not_isCall rfl⟩
  · intro t ht
    obtain rfl : t = ((ofStore s file).opened p).main := by
      simpa [tasks, hthreads] using ht
    exact hidle

/-- At every moment of a run, in whatever order its threads go on, and in every
thread, the calls of functions and instances that go on or are about to begin
are at most two for each level of the depth, and two more, besides those that
instances passed on to instances.  Where the depth is used up, whatever it is charged for fails. -/
theorem nestedCalls_bounded {s : Store} {file : String} {p : Program} {v : World}
    (h : (ofStore s file).Moment terms p v) {t : Task} (ht : t ∈ v.tasks) :
    nestedCalls t.nesting ≤ 2 * terms.maxDepth + 2 + forwards t.nesting ∧
    t.depth ≤ terms.maxDepth ∧
    (t.depth = terms.maxDepth → t.control.isCharging = true →
      ∀ s', t.step terms.toLimits s' = (t.failing .tooDeep, s')) := by
  have hnests := h.nests t ht
  obtain ⟨hnested, hcharges⟩ := hnests.nesting
  have hdepth := hnests.depth_le
  refine ⟨?_, hdepth, ?_⟩
  · obtain ⟨hle, -⟩ := nestedCalls_le hnested
    omega
  · intro hused hcharging s'
    exact Task.step_charging hcharging hused s'

/-- A program that makes a chain of nine instances, each of which passes its
calls on to the one before, and calls the last. -/
def passing : Program :=
  let name (n : String) : Expr := .name ⟨n, .nowhere⟩
  let wrapping (v : Expr) : Stmt :=
    .assign .nowhere ⟨"x", .nowhere⟩ (.call .nowhere (name "C") [v])
  ⟨"", .classDef .nowhere ⟨"C", .nowhere⟩ [⟨⟨"__call__", .nowhere⟩, none⟩] [] ::
    wrapping (name "print") :: List.replicate 8 (wrapping (name "x")) ++
    [.expr .nowhere "x" (.call .nowhere (name "x") [])]⟩

/-- The calls passed on are charged nowhere: nine nest in one thread although
the depth is limited to three. -/
theorem nestedCalls_bounded_passing :
    ∃ v, (ofStore .initial "main").Moment (.bare ⟨3, 0⟩) passing v ∧
      nestedCalls v.main.nesting = 9 ∧ forwards v.main.nesting = 8 ∧
      nestedCalls v.main.nesting ≤ 2 * 3 + 2 + forwards v.main.nesting := by
  have hrun : ((ofStore .initial "main").momentAt (.bare ⟨3, 0⟩) passing.statements
      142).any (fun m => nestedCalls m.1.main.nesting = 9 ∧ forwards m.1.main.nesting = 8) := by
    decide +kernel
  obtain ⟨⟨v, rest⟩, hv, hnesting⟩ := (Option.any_eq_true _ _).mp hrun
  obtain ⟨hcalls, hforwards⟩ := of_decide_eq_true hnesting
  have hmoment : (ofStore .initial "main").Moment (.bare ⟨3, 0⟩) passing v :=
    moment_iff.mpr ⟨_, rest, hv⟩
  refine ⟨v, hmoment, hcalls, hforwards, ?_⟩
  exact (nestedCalls_bounded hmoment List.mem_cons_self).1

end World

end Scriptlet
