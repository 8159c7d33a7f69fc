/-
Environments that share frames.  Through an environment a name is seen with the value that it was
last given in the innermost frame that has it; an environment and what was captured of it cannot
be told apart; what is set through an extension stays there, and what is set outside is seen
through the extension unless its own frame hides it.
-/
import Mathlib.Logic.Relation
import Scriptlet.Proofs.Binding

namespace Scriptlet

variable {α : Type}

namespace Bindings

theorem find_put (name other : String) (v : α) (entries : List (String × α)) :
    find other (put name v entries) = if name = other then some v else find other entries := by
  induction entries with
  | nil => rfl
  | cons entry rest ih =>
      obtain ⟨n, w⟩ := entry
      rw [put]
      by_cases hn : n = name
      · subst hn
        rw [if_pos rfl, find, find]
        split <;> rfl
      · rw [if_neg hn, find, find, ih]
        by_cases hother : name = other
        · subst hother
          rw [if_pos rfl, if_pos rfl, if_neg hn]
        · rw [if_neg hother, if_neg hother]

theorem get?_set (b : Bindings α) (name other : String) (v : α) :
    (b.set name v).get? other = if name = other then some v else b.get? other :=
  find_put name other v b.entries

end Bindings

def Environment.places (env : Environment) : List Place := env.map Place.frame ++ [.globals]

namespace Scopes

/-- The value that a name has in a place. -/
def bound? (s : Scopes α) (p : Place) (name : String) : Option α :=
  match p with
  | .globals => s.globals.get? name
  | .frame n => s.frames[n]?.bind fun b => b.get? name

theorem get?_cons (s : Scopes α) (name : String) (frame : Nat) (outer : Environment) :
    s.get? name (frame :: outer) = (s.bound? (.frame frame) name).or (s.get? name outer) := by
  rw [get?, bound?]
  split <;> rename_i h <;> rw [h]
  · rw [Option.some_or]
  · rw [Option.none_or]

theorem get?_eq (s : Scopes α) (name : String) (env : Environment) :
    s.get? name env = env.places.findSome? fun p => s.bound? p name := by
  induction env with
  | nil => simp [get?, Environment.places, bound?]
  | cons frame outer ih =>
      rw [get?_cons, ih, Environment.places, Environment.places, List.map_cons, List.cons_append,
        List.findSome?_cons]
      split <;> rename_i h <;> rw [h]
      · rw [Option.some_or]
      · rw [Option.none_or]

/-- A name that is set has its value in the place where the environment binds names. -/
theorem bound?_set {s : Scopes α} {env : Environment} (henv : ∀ n ∈ env, n < s.frames.size)
    (name : String) (v : α) (p : Place) (other : String) :
    (s.set env name v).bound? p other =
      if p = env.innermost ∧ name = other then some v else s.bound? p other := by
  cases env with
  | nil =>
      cases p with
      | globals => simpa [Environment.innermost, set, bound?] using s.globals.get?_set name other v
      | frame n => rfl
  | cons frame outer =>
      cases p with
      | globals => rfl
      | frame n =>
          by_cases hn : n = frame
          · subst hn
            have hsome := Array.getElem?_eq_getElem (henv n List.mem_cons_self)
            simp [set, bound?, Environment.innermost, Array.getElem?_modify, hsome,
              Bindings.get?_set]
          · simp [set, bound?, Environment.innermost, Array.getElem?_modify, hn, Ne.symm hn]

theorem get?_set {s : Scopes α} {env : Environment} (henv : ∀ n ∈ env, n < s.frames.size)
    (name : String) (v : α) : (s.set env name v).get? name env = some v := by
  have hown : (s.set env name v).bound? env.innermost name = some v := by
    rw [bound?_set henv, if_pos ⟨rfl, rfl⟩]
  cases env with
  | nil => exact hown
  | cons frame outer =>
      rw [Environment.innermost] at hown
      rw [get?_cons, hown, Option.some_or]

/-- In a new frame nothing has a value. -/
theorem bound?_extend (s : Scopes α) (env : Environment) (p : Place) (name : String) :
    (s.extend env .empty).2.bound? p name = s.bound? p name := by
  cases p with
  | globals => rfl
  | frame n =>
      change (s.frames.push .empty)[n]?.bind _ = _
      rw [Array.getElem?_push]
      split
      · rename_i hn
        rw [hn, bound?, Array.getElem?_size]
        rfl
      · rfl

structure SameBut (n : Nat) (s t : Scopes α) : Prop where
  globals : t.globals = s.globals
  size : t.frames.size = s.frames.size
  frames : ∀ m : Nat, m ≠ n → t.frames[m]? = s.frames[m]?

namespace SameBut

variable {n : Nat} {s t : Scopes α}

theorem extend (h : s.SameBut n t) (env : Environment) (b : Bindings α) :
    (s.extend env b).2.SameBut n (t.extend env b).2 := by
  refine ⟨h.globals, ?_, fun m hm => ?_⟩
  · simp only [Scopes.extend, Array.size_push, h.size]
  · simp only [Scopes.extend, Array.getElem?_push, h.size, h.frames m hm]

theorem set (h : s.SameBut n t) (env : Environment) (name : String) (v : α) :
    (s.set env name v).SameBut n (t.set env name v) := by
  cases env with
  | nil => exact ⟨by simp only [Scopes.set, h.globals], h.size, h.frames⟩
  | cons frame outer =>
      refine ⟨h.globals, ?_, fun m hm => ?_⟩
      · simp only [Scopes.set, Array.size_modify, h.size]
      · simp only [Scopes.set, Array.getElem?_modify, h.frames m hm]

/-- The frame is out of sight where it is not looked up. -/
theorem get? (h : s.SameBut n t) {env : Environment} (henv : n ∉ env) (name : String) :
    t.get? name env = s.get? name env := by
  induction env with
  | nil => simp only [Scopes.get?, h.globals]
  | cons frame outer ih =>
      obtain ⟨hframe, houter⟩ := not_or.mp (mt List.mem_cons.mpr henv)
      simp only [Scopes.get?, h.frames frame (Ne.symm hframe), ih houter]

end SameBut

/-- Names that are set are set in one frame, unless they are global. -/
theorem sameBut_set (s : Scopes α) (n : Nat) (outer : Environment) (name : String) (v : α) :
    s.SameBut n (s.set (n :: outer) name v) := by
  refine ⟨rfl, Array.size_modify, fun m hm => ?_⟩
  simp only [set, Array.getElem?_modify, if_neg (Ne.symm hm)]

end Scopes

/-- Some environments over the same global names, each with a number, in the order in which they
were made. -/
structure Family (α : Type) where
  scopes : Scopes α
  members : Array Environment

namespace Family

/-- What may be done with a family: to make another environment, over the global names alone, over
a member with a new frame, or over a member as it is; to set a name through a member, and to look
one up. -/
inductive Deed (α : Type) where
  | new
  | extend (i : Nat)
  | capture (i : Nat)
  | set (i : Nat) (name : String) (v : α)
  | get (i : Nat) (name : String)

/-- The one environment with no frame over some global names. -/
def alone (globals : Bindings α) : Family α := ⟨⟨globals, #[]⟩, #[[]]⟩

/-- The value of a name through a member. -/
def get? (f : Family α) (i : Nat) (name : String) : Option α :=
  f.members[i]?.bind (f.scopes.get? name)

/-- What a deed answers and leaves; none where there is no such member. -/
def perform (f : Family α) : Deed α → Option (Option α × Family α)
  | .new => some (none, { f with members := f.members.push [] })
  | .extend i => f.members[i]?.map fun env =>
    let (inner, scopes) := f.scopes.extend env .empty
    (none, ⟨scopes, f.members.push inner⟩)
  | .capture i => f.members[i]?.map fun env =>
    (none, { f with members := f.members.push (f.scopes.capture env) })
  | .set i name v => f.members[i]?.map fun env =>
    (some v, { f with scopes := f.scopes.set env name v })
  | .get i name => f.members[i]?.map fun env => (f.scopes.get? name env, f)

/-- What deeds done one after the other answer and leave. -/
def run (f : Family α) : List (Deed α) → Option (List (Option α) × Family α)
  | [] => some ([], f)
  | d :: rest => do
    let (answer, f) ← f.perform d
    let (answers, f) ← f.run rest
    some (answer :: answers, f)

/-- The value that a deed gives a name in a place, if it does. -/
def Deed.sets? (members : Array Environment) (p : Place) (name : String) : Deed α → Option α
  | .set i n v => if members[i]?.map Environment.innermost = some p ∧ n = name then some v else none
  | _ => none

/-- The value that a name was last given in a place, or has there from the beginning. -/
def latest (f : Family α) (globals : Bindings α) (ds : List (Deed α)) (name : String) (p : Place) :
    Option α :=
  (ds.reverse.findSome? (Deed.sets? f.members p name)).or ((alone globals).scopes.bound? p name)

/-- The member that a deed makes an environment of, if it makes one and makes it of a member. -/
def Deed.origin? : Deed α → Option (Option Nat)
  | .new => some none
  | .extend i | .capture i => some (some i)
  | .set _ _ _ | .get _ _ => none

/-- For each member what it was made of, if it was made of a member. -/
def origins (ds : List (Deed α)) : List (Option Nat) := none :: ds.filterMap Deed.origin?

def BuiltFrom (ds : List (Deed α)) (i k : Nat) : Prop :=
  Relation.ReflTransGen (fun j k => (origins ds)[k]? = some (some j)) i k

/-- The deed with one member in the place of another. -/
def Deed.redirect (i j : Nat) : Deed α → Deed α
  | .new => .new
  | .extend k => .extend (if k = i then j else k)
  | .capture k => .capture (if k = i then j else k)
  | .set k name v => .set (if k = i then j else k) name v
  | .get k name => .get (if k = i then j else k) name

variable {f f' f'' u u' : Family α} {d : Deed α} {ds : List (Deed α)} {a : Option α}
  {as : List (Option α)}

/-- A deed makes another member, over a new frame or over frames that there are, or sets a name
through a member, or leaves the family as it is. -/
theorem perform_cases (h : f.perform d = some (a, f')) :
    (d = .new ∧ f' = { f with members := f.members.push [] }) ∨
    (∃ i env, d = .extend i ∧ f.members[i]? = some env ∧
      f' = ⟨(f.scopes.extend env .empty).2, f.members.push (f.scopes.frames.size :: env)⟩) ∨
    (∃ i env, d = .capture i ∧ f.members[i]? = some env ∧
      f' = { f with members := f.members.push env }) ∨
    (∃ i env name v, d = .set i name v ∧ f.members[i]? = some env ∧ a = some v ∧
      f' = { f with scopes := f.scopes.set env name v }) ∨
    (∃ i env name, d = .get i name ∧ f.members[i]? = some env ∧ a = f.scopes.get? name env ∧
      f' = f) := by
  cases d with
  | new =>
      obtain ⟨-, rfl⟩ := Prod.mk.inj (Option.some.inj h)
      exact .inl ⟨rfl, rfl⟩
  | extend i =>
      obtain ⟨env, henv, heq⟩ := Option.map_eq_some_iff.mp h
      obtain ⟨-, rfl⟩ := Prod.mk.inj heq
      exact .inr (.inl ⟨i, env, rfl, henv, rfl⟩)
  | capture i =>
      obtain ⟨env, henv, heq⟩ := Option.map_eq_some_iff.mp h
      obtain ⟨-, rfl⟩ := Prod.mk.inj heq
      exact .inr (.inr (.inl ⟨i, env, rfl, henv, rfl⟩))
  | set i name v =>
      obtain ⟨env, henv, heq⟩ := Option.map_eq_some_iff.mp h
      obtain ⟨rfl, rfl⟩ := Prod.mk.inj heq
      exact .inr (.inr (.inr (.inl ⟨i, env, name, v, rfl, henv, rfl, rfl⟩)))
  | get i name =>
      obtain ⟨env, henv, heq⟩ := Option.map_eq_some_iff.mp h
      obtain ⟨rfl, rfl⟩ := Prod.mk.inj heq
      exact .inr (.inr (.inr (.inr ⟨i, env, name, rfl, henv, rfl, rfl⟩)))

/-- Members stay as they were made. -/
theorem members_perform (h : f.perform d = some (a, f')) {i : Nat} {env : Environment}
    (hi : f.members[i]? = some env) : f'.members[i]? = some env := by
  obtain ⟨hlt, -⟩ := Array.getElem?_eq_some_iff.mp hi
  have hpush : ∀ new, (f.members.push new)[i]? = some env := by
    intro new
    rwa [Array.getElem?_push, if_neg (Nat.ne_of_lt hlt)]
  obtain ⟨-, rfl⟩ | ⟨j, env', -, -, rfl⟩ | ⟨j, env', -, -, rfl⟩ | ⟨j, env', name, v, -, -, -, rfl⟩ |
    ⟨j, env', name, -, -, -, rfl⟩ := perform_cases h
  · exact hpush _
  · exact hpush _
  · exact hpush _
  · exact hi
  · exact hi

theorem run_cons (h : f.run (d :: ds) = some (as, f'')) :
    ∃ a f' as', f.perform d = some (a, f') ∧ f'.run ds = some (as', f'') ∧ as = a :: as' := by
  simp only [run, Option.bind_eq_bind, Option.bind_eq_some_iff, Option.some.injEq,
    Prod.mk.injEq] at h
  obtain ⟨⟨a, f'⟩, hperform, ⟨as', f₂⟩, hrun, rfl, rfl⟩ := h
  exact ⟨a, f', as', hperform, hrun, rfl⟩

theorem members_run (h : f.run ds = some (as, f')) {i : Nat} {env : Environment}
    (hi : f.members[i]? = some env) : f'.members[i]? = some env := by
  induction ds generalizing f as with
  | nil =>
      obtain ⟨-, rfl⟩ := Prod.mk.inj (Option.some.inj h)
      exact hi
  | cons d ds ih =>
      obtain ⟨a, f₁, as', hperform, hrun, -⟩ := run_cons h
      exact ih hrun (members_perform hperform hi)

/-- What holds in every family: all frames of the members exist, and a member that was made of
another one has its frames, and perhaps one that is newer than those. -/
structure Sound (f : Family α) (origins : List (Option Nat)) : Prop where
  frames : ∀ (i : Nat) (env : Environment), f.members[i]? = some env →
    ∀ n ∈ env, n < f.scopes.frames.size
  length : origins.length = f.members.size
  made : ∀ j k : Nat, origins[k]? = some (some j) → ∃ env inner, f.members[j]? = some env ∧
    f.members[k]? = some inner ∧ (inner = env ∨ ∃ n, inner = n :: env ∧ ∀ m ∈ env, m < n)

theorem sound_alone (globals : Bindings α) :
    (alone globals).Sound (origins ([] : List (Deed α))) := by
  refine ⟨fun i env hi n hn => ?_, rfl, fun j k hk => ?_⟩
  · have hempty : env = [] := by
      have hmem := Array.mem_of_getElem? hi
      simpa [alone] using hmem
    rw [hempty] at hn
    cases hn
  · have hmem := List.mem_of_getElem? hk
    simp [origins] at hmem

/-- A new member is sound that is made of a sound one, or of none. -/
theorem Sound.push {origins : List (Option Nat)} (h : f.Sound origins) {scopes : Scopes α}
    {new : Environment} {origin : Option Nat}
    (hsize : f.scopes.frames.size ≤ scopes.frames.size) (hnew : ∀ n ∈ new, n < scopes.frames.size)
    (hmade : ∀ j, origin = some j → ∃ env : Environment, f.members[j]? = some env ∧
      (new = env ∨ ∃ n, new = n :: env ∧ ∀ m ∈ env, m < n)) :
    Sound ⟨scopes, f.members.push new⟩ (origins ++ [origin]) := by
  have hold : ∀ {j : Nat} {env : Environment}, f.members[j]? = some env →
      (f.members.push new)[j]? = some env := by
    intro j env hj
    obtain ⟨hlt, -⟩ := Array.getElem?_eq_some_iff.mp hj
    rwa [Array.getElem?_push, if_neg (Nat.ne_of_lt hlt)]
  refine ⟨fun i env hi n hn => ?_, ?_, fun j k hk => ?_⟩
  · change (f.members.push new)[i]? = some env at hi
    rw [Array.getElem?_push] at hi
    split at hi
    · rw [← Option.some.inj hi] at hn
      exact hnew n hn
    · exact Nat.lt_of_lt_of_le (h.frames i env hi n hn) hsize
  · rw [List.length_append, h.length, Array.size_push]
    rfl
  · rcases Nat.lt_or_ge k origins.length with hlt | hge
    · rw [List.getElem?_append_left hlt] at hk
      obtain ⟨env, inner, hj, hk, hframes⟩ := h.made j k hk
      exact ⟨env, inner, hold hj, hold hk, hframes⟩
    · rw [List.getElem?_append_right hge, List.getElem?_singleton] at hk
      split at hk
      · obtain ⟨env, hj, hframes⟩ := hmade j (Option.some.inj hk)
        obtain rfl : k = f.members.size := by
          rw [← h.length]
          omega
        exact ⟨env, new, hold hj, Array.getElem?_push_size, hframes⟩
      · cases hk

theorem Sound.perform {origins : List (Option Nat)} (h : f.Sound origins)
    (hd : f.perform d = some (a, f')) : f'.Sound (origins ++ [d].filterMap Deed.origin?) := by
  obtain ⟨rfl, rfl⟩ | ⟨i, env, rfl, hi, rfl⟩ | ⟨i, env, rfl, hi, rfl⟩ |
    ⟨i, env, name, v, rfl, hi, -, rfl⟩ | ⟨i, env, name, rfl, hi, -, rfl⟩ := perform_cases hd
  · exact h.push (Nat.le_refl _) (fun n hn => nomatch hn) (fun j hj => nomatch hj)
  · have hold := h.frames i env hi
    have hsize : (f.scopes.extend env .empty).2.frames.size = f.scopes.frames.size + 1 :=
      Array.size_push _
    refine h.push (by omega) ?_ ?_
    · rintro n (_ | ⟨_, hn⟩)
      · omega
      · have := hold n hn
        omega
    · rintro j hj
      obtain rfl := Option.some.inj hj
      exact ⟨env, hi, .inr ⟨_, rfl, hold⟩⟩
  · refine h.push (Nat.le_refl _) (h.frames i env hi) ?_
    rintro j hj
    obtain rfl := Option.some.inj hj
    exact ⟨env, hi, .inl rfl⟩
  · have hsize : (f.scopes.set env name v).frames.size = f.scopes.frames.size := by
      cases env with
      | nil => rfl
      | cons n outer => exact Array.size_modify
    have hnone : origins ++ [Deed.set i name v].filterMap Deed.origin? = origins :=
      List.append_nil origins
    rw [hnone]
    refine ⟨fun j env' hj n hn => ?_, h.length, h.made⟩
    change n < (f.scopes.set env name v).frames.size
    rw [hsize]
    exact h.frames j env' hj n hn
  · have hnone : origins ++ [(Deed.get i name : Deed α)].filterMap Deed.origin? = origins :=
      List.append_nil origins
    rwa [hnone]

theorem Sound.run {origins : List (Option Nat)} (h : f.Sound origins)
    (hds : f.run ds = some (as, f')) : f'.Sound (origins ++ ds.filterMap Deed.origin?) := by
  induction ds generalizing f as origins with
  | nil =>
      obtain ⟨-, rfl⟩ := Prod.mk.inj (Option.some.inj hds)
      rwa [List.filterMap_nil, List.append_nil]
  | cons d ds ih =>
      obtain ⟨a, f₁, as', hperform, hrun, -⟩ := run_cons hds
      have hrest := ih (h.perform hperform) hrun
      rwa [List.append_assoc, ← List.filterMap_append] at hrest

theorem sound_run {globals : Bindings α} (h : (alone globals).run ds = some (as, f)) :
    f.Sound (origins ds) := (sound_alone globals).run h

/-- A deed gives a name a value in a place if it sets it there, and leaves the other names as they
are. -/
theorem bound?_perform {origins : List (Option Nat)} (hf : f.Sound origins)
    (h : f.perform d = some (a, f')) {members : Array Environment}
    (hmembers : ∀ (i : Nat) (env : Environment), f.members[i]? = some env → members[i]? = some env)
    (p : Place) (name : String) :
    f'.scopes.bound? p name = (d.sets? members p name).or (f.scopes.bound? p name) := by
  obtain ⟨rfl, rfl⟩ | ⟨i, env, rfl, hi, rfl⟩ | ⟨i, env, rfl, hi, rfl⟩ |
    ⟨i, env, n, v, rfl, hi, -, rfl⟩ | ⟨i, env, n, rfl, hi, -, rfl⟩ := perform_cases h
  · rfl
  · exact f.scopes.bound?_extend env p name
  · rfl
  · have hplace : members[i]?.map Environment.innermost = some p ↔ p = env.innermost := by
      rw [hmembers i env hi, Option.map_some, Option.some.injEq, eq_comm]
    rw [Scopes.bound?_set (hf.frames i env hi)]
    simp only [Deed.sets?, hplace]
    split <;> rfl
  · rfl

/-- After any deeds a name has in each place the value that it was last given there. -/
theorem bound?_run {origins : List (Option Nat)} (hf : f.Sound origins)
    (h : f.run ds = some (as, f')) {members : Array Environment}
    (hmembers : ∀ (i : Nat) (env : Environment), f'.members[i]? = some env → members[i]? = some env)
    (p : Place) (name : String) :
    f'.scopes.bound? p name =
      (ds.reverse.findSome? (Deed.sets? members p name)).or (f.scopes.bound? p name) := by
  induction ds generalizing f as origins with
  | nil =>
      obtain ⟨-, rfl⟩ := Prod.mk.inj (Option.some.inj h)
      rfl
  | cons d ds ih =>
      obtain ⟨a, f₁, as', hperform, hrun, -⟩ := run_cons h
      have hlater : ∀ (i : Nat) (env : Environment), f.members[i]? = some env →
          members[i]? = some env := fun i env hi =>
        hmembers i env (members_run hrun (members_perform hperform hi))
      rw [ih (hf.perform hperform) hrun, bound?_perform hf hperform hlater, List.reverse_cons,
        List.findSome?_append, List.findSome?_singleton, Option.or_assoc]

theorem bound?_eq_latest {globals : Bindings α} (h : (alone globals).run ds = some (as, f))
    (p : Place) (name : String) : f.scopes.bound? p name = f.latest globals ds name p :=
  bound?_run (sound_alone globals) h (fun _ _ hi => hi) p name

/-- What a member stands for may be put in its place. -/
theorem perform_redirect {i j : Nat} (h : f.members[i]? = f.members[j]?) :
    f.perform (d.redirect i j) = f.perform d := by
  have hsame : ∀ k : Nat, f.members[if k = i then j else k]? = f.members[k]? := by
    intro k
    split
    · rename_i hk
      rw [hk, h]
    · rfl
  cases d <;> simp only [Deed.redirect, perform, hsame]

theorem run_redirect {i j : Nat} {env : Environment} (hi : f.members[i]? = some env)
    (hj : f.members[j]? = some env) : f.run (ds.map (Deed.redirect i j)) = f.run ds := by
  induction ds generalizing f with
  | nil => rfl
  | cons d ds ih =>
      rw [List.map_cons, run, run, perform_redirect (hi.trans hj.symm)]
      cases hperform : f.perform d with
      | none => rfl
      | some result =>
          obtain ⟨a, f'⟩ := result
          have hrest := ih (members_perform hperform hi) (members_perform hperform hj)
          simp only [Option.bind_eq_bind, Option.bind_some, hrest]

/-- What is done through a member and through what is captured of it comes to the same. -/
theorem capture_shares {i : Nat} (hlt : i < f.members.size) :
    ∃ f', f.perform (.capture i) = some (none, f') ∧ ∀ later later' : List (Deed α),
      later.map (Deed.redirect f.members.size i) = later'.map (Deed.redirect f.members.size i) →
        f'.run later = f'.run later' := by
  have hi := Array.getElem?_eq_getElem hlt
  refine ⟨{ f with members := f.members.push f.members[i] }, ?_, fun later later' hsame => ?_⟩
  · simp only [perform, hi, Option.map_some, Scopes.capture]
  · have hnew : (f.members.push f.members[i])[f.members.size]? = some f.members[i] :=
      Array.getElem?_push_size
    have hold : (f.members.push f.members[i])[i]? = some f.members[i] := by
      rwa [Array.getElem?_push, if_neg (Nat.ne_of_lt hlt)]
    rw [← run_redirect hnew hold, hsame, run_redirect hnew hold]

theorem perform_extend {i : Nat} {env : Environment} (hi : f.members[i]? = some env) :
    f.perform (.extend i) = some (none, ⟨(f.scopes.extend env .empty).2,
      f.members.push (f.scopes.frames.size :: env)⟩) := by
  rw [perform, hi, Option.map_some]
  rfl

/-- What is done with a family is done too where one frame has other names. -/
theorem perform_sameBut {n : Nat} {t : Scopes α} (h : f.scopes.SameBut n t)
    (hd : f.perform d = some (a, f')) :
    ∃ b t', ({ f with scopes := t } : Family α).perform d = some (b, { f' with scopes := t' }) ∧
      f'.scopes.SameBut n t' := by
  obtain ⟨rfl, rfl⟩ | ⟨i, env, rfl, hi, rfl⟩ | ⟨i, env, rfl, hi, rfl⟩ |
    ⟨i, env, name, v, rfl, hi, -, rfl⟩ | ⟨i, env, name, rfl, hi, -, rfl⟩ := perform_cases hd
  · exact ⟨none, t, rfl, h⟩
  · refine ⟨none, (t.extend env .empty).2, ?_, h.extend env .empty⟩
    simp only [perform, hi, Option.map_some, Scopes.extend, h.size]
  · refine ⟨none, t, ?_, h⟩
    simp only [perform, hi, Option.map_some, Scopes.capture]
  · refine ⟨some v, t.set env name v, ?_, h.set env name v⟩
    simp only [perform, hi, Option.map_some]
  · refine ⟨t.get? name env, t, ?_, h⟩
    simp only [perform, hi, Option.map_some]

theorem run_sameBut {n : Nat} {t : Scopes α} (h : f.scopes.SameBut n t)
    (hds : f.run ds = some (as, f')) :
    ∃ bs t', ({ f with scopes := t } : Family α).run ds = some (bs, { f' with scopes := t' }) ∧
      f'.scopes.SameBut n t' := by
  induction ds generalizing f t as with
  | nil =>
      obtain ⟨-, rfl⟩ := Prod.mk.inj (Option.some.inj hds)
      exact ⟨[], t, rfl, h⟩
  | cons d ds ih =>
      obtain ⟨a, f₁, as', hperform, hrun, -⟩ := run_cons hds
      obtain ⟨b, t₁, hperform', h₁⟩ := perform_sameBut h hperform
      obtain ⟨bs, t', hrun', h'⟩ := ih h₁ hrun
      refine ⟨b :: bs, t', ?_, h'⟩
      simp only [run, hperform', Option.bind_eq_bind, Option.bind_some, hrun']

/-- What is built from a member whose innermost frame is new has a new innermost frame too. -/
theorem Sound.innermost {origins : List (Option Nat)} (h : f.Sound origins) {first i k : Nat}
    (hi : ∃ n outer, f.members[i]? = some (n :: outer) ∧ first ≤ n)
    (hk : Relation.ReflTransGen (fun j k => origins[k]? = some (some j)) i k) :
    ∃ n outer, f.members[k]? = some (n :: outer) ∧ first ≤ n := by
  induction hk with
  | refl => exact hi
  | tail _ hmade ih =>
      obtain ⟨n, outer, hj, hn⟩ := ih
      obtain ⟨env, inner, henv, hinner, hframes⟩ := h.made _ _ hmade
      obtain rfl := Option.some.inj (hj.symm.trans henv)
      obtain rfl | ⟨m, rfl, hm⟩ := hframes
      · exact ⟨n, outer, hinner, hn⟩
      · exact ⟨m, n :: outer, hinner, Nat.le_trans hn (Nat.le_of_lt (hm n List.mem_cons_self))⟩

theorem run_append {later : List (Deed α)} {bs : List (Option α)} (h : f.run ds = some (as, f'))
    (hlater : f'.run later = some (bs, f'')) : f.run (ds ++ later) = some (as ++ bs, f'') := by
  induction ds generalizing f as with
  | nil =>
      obtain ⟨rfl, rfl⟩ := Prod.mk.inj (Option.some.inj h)
      exact hlater
  | cons d ds ih =>
      obtain ⟨a, f₁, as', hperform, hrun, rfl⟩ := run_cons h
      simp only [List.cons_append, run, hperform, Option.bind_eq_bind, Option.bind_some, ih hrun]

/-- A name that is set in a frame is not seen through a member without that frame, whatever is
done afterwards. -/
theorem set_unseen {i k n : Nat} {env outer : Environment} (hi : f.members[i]? = some env)
    (hk : f.members[k]? = some (n :: outer)) (hn : n ∉ env) (name : String) (v : α) :
    ∃ u, f.perform (.set k name v) = some (some v, u) ∧
      ∀ further cs w, f.run further = some (cs, w) → ∃ cs' w', u.run further = some (cs', w') ∧
        ∀ other, w'.get? i other = w.get? i other := by
  refine ⟨{ f with scopes := f.scopes.set (n :: outer) name v }, ?_, fun further cs w hrun => ?_⟩
  · simp only [perform, hk, Option.map_some]
  · obtain ⟨cs', t, hrun', hsame⟩ := run_sameBut (f.scopes.sameBut_set n outer name v) hrun
    refine ⟨cs', { w with scopes := t }, hrun', fun other => ?_⟩
    simp only [get?, members_run hrun hi, Option.bind_some, hsame.get? hn other]

/-- A name that is set through a member is seen through one with a further frame, unless it has a
value in that. -/
theorem get?_set_outside {i k n : Nat} {env : Environment} (hi : f.members[i]? = some env)
    (hframes : ∀ m ∈ env, m < f.scopes.frames.size) (hk : f.members[k]? = some (n :: env))
    (hn : n ∉ env) (name : String) (v : α) :
    ∃ u, f.perform (.set i name v) = some (some v, u) ∧
      u.get? k name = (f.scopes.bound? (.frame n) name).or (some v) := by
  refine ⟨{ f with scopes := f.scopes.set env name v }, ?_, ?_⟩
  · simp only [perform, hi, Option.map_some]
  · have hown : (f.scopes.set env name v).bound? (.frame n) name =
        f.scopes.bound? (.frame n) name := by
      rw [Scopes.bound?_set hframes, if_neg]
      rintro ⟨hplace, -⟩
      cases env with
      | nil => cases hplace
      | cons m outer => exact hn (Place.frame.inj hplace ▸ List.mem_cons_self)
    simp only [get?, hk, Option.bind_some, Scopes.get?_cons, hown, Scopes.get?_set hframes]

/-- Whatever was done with environments over shared global names: a name is seen through one with
the value last given to it in the innermost frame that has it, or else among the globals.  What is
done through an environment or through what was captured of it comes to the same for ever.  What
is set through an extension, or through anything built from that, is never seen through the
environment that was extended; and what is set through the latter is seen through the extension
if the name has no value in the extension's own frame, and changes nothing there if it has one. -/
theorem environments_share_and_isolate (globals : Bindings α)
    (h : (alone globals).run ds = some (as, f)) :
    (∀ (i : Nat) (env : Environment) (name : String), f.members[i]? = some env →
      f.perform (.get i name) = some (f.get? i name, f) ∧
      f.get? i name = env.places.findSome? (f.latest globals ds name)) ∧
    ∀ i, i < f.members.size →
      (∃ f', f.perform (.capture i) = some (none, f') ∧ ∀ later later' : List (Deed α),
        later.map (Deed.redirect f.members.size i) = later'.map (Deed.redirect f.members.size i) →
          f'.run later = f'.run later') ∧
      ∃ f', f.perform (.extend i) = some (none, f') ∧ ∀ later bs f'',
        f'.run later = some (bs, f'') →
          (∀ k name v, BuiltFrom (ds ++ .extend i :: later) f.members.size k →
            ∃ u, f''.perform (.set k name v) = some (some v, u) ∧
              ∀ further cs w, f''.run further = some (cs, w) →
                ∃ cs' w', u.run further = some (cs', w') ∧
                  ∀ other, w'.get? i other = w.get? i other) ∧
          ∀ name v, ∃ own u, f''.members[f.members.size]?.map Environment.innermost = some own ∧
            f''.perform (.set i name v) = some (some v, u) ∧
            (f''.latest globals (ds ++ .extend i :: later) name own = none →
              u.get? f.members.size name = some v) ∧
            (f''.latest globals (ds ++ .extend i :: later) name own ≠ none →
              u.get? f.members.size name = f''.get? f.members.size name) := by
  refine ⟨fun i env name hi => ?_, fun i hlt => ⟨?_, ?_⟩⟩
  · have hlatest : (fun p => f.scopes.bound? p name) = f.latest globals ds name :=
      funext fun p => bound?_eq_latest h p name
    simp only [perform, get?, hi, Option.map_some, Option.bind_some, Scopes.get?_eq, hlatest,
      and_self]
  · exact capture_shares hlt
  · have hi := Array.getElem?_eq_getElem hlt
    have hold := (sound_run h).frames i _ hi
    -- The frame of the new member is not among those of the old one, which all came before it.
    have hnew : f.scopes.frames.size ∉ f.members[i] := fun hmem => Nat.lt_irrefl _ (hold _ hmem)
    have hextend := perform_extend hi
    refine ⟨_, hextend, fun later bs f'' hlater => ?_⟩
    have hwhole : (alone globals).run (ds ++ .extend i :: later) =
        some (as ++ none :: bs, f'') := by
      refine run_append h ?_
      simp only [run, hextend, Option.bind_eq_bind, Option.bind_some, hlater]
    have hsound := sound_run hwhole
    have hkept : f''.members[i]? = some f.members[i] :=
      members_run hlater (members_perform hextend hi)
    have hinner : f''.members[f.members.size]? = some (f.scopes.frames.size :: f.members[i]) :=
      members_run hlater Array.getElem?_push_size
    refine ⟨fun k name v hk => ?_, fun name v => ?_⟩
    · obtain ⟨n, outer, hk, hn⟩ := hsound.innermost ⟨_, _, hinner, Nat.le_refl _⟩ hk
      refine set_unseen hkept hk (fun hmem => ?_) name v
      exact Nat.not_lt.mpr hn (hold n hmem)
    · obtain ⟨u, hset, hseen⟩ :=
        get?_set_outside hkept (hsound.frames i _ hkept) hinner hnew name v
      refine ⟨.frame f.scopes.frames.size, u, ?_, hset, fun hnone => ?_, fun hsome => ?_⟩
      · rw [hinner]
        rfl
      · rw [hseen, bound?_eq_latest hwhole, hnone, Option.none_or]
      · rw [← bound?_eq_latest hwhole] at hsome
        obtain ⟨w, hw⟩ := Option.ne_none_iff_exists'.mp hsome
        rw [hseen, get?, hinner, Option.bind_some, Scopes.get?_cons, hw, Option.some_or,
          Option.some_or]

/-- An environment is extended, the extension is captured and extended again, and x is set through
the first environment, through the captured one, and by and by in between. -/
def meeting : List (Deed Nat) :=
  [.extend 0, .set 1 "x" 1, .set 0 "x" 2, .capture 1, .extend 1, .set 2 "x" 3]

theorem environments_share_and_isolate_captured :
    ∃ as f, (alone Bindings.empty).run meeting = some (as, f) ∧
      f.get? 0 "x" = some 2 ∧ f.get? 1 "x" = some 3 ∧ f.get? 3 "x" = some 3 ∧
      ∃ f', f.perform (.extend 3) = some (none, f') ∧
        ∃ u, f'.perform (.set 3 "x" 4) = some (some 4, u) ∧ u.get? 4 "x" = some 4 := by
  obtain ⟨as, f, hrun⟩ : ∃ as f, (alone Bindings.empty).run meeting = some (as, f) := ⟨_, _, rfl⟩
  obtain ⟨hseen, hshared⟩ := environments_share_and_isolate .empty hrun
  obtain ⟨rfl, rfl⟩ := Prod.mk.inj (Option.some.inj hrun)
  refine ⟨_, _, hrun, (hseen 0 [] "x" rfl).2, (hseen 1 [0] "x" rfl).2,
    (hseen 3 [1, 0] "x" rfl).2, ?_⟩
  obtain ⟨-, f', hextend, hlater⟩ := hshared 3 (by decide)
  obtain ⟨own, u, hown, hset, hfree, -⟩ := (hlater [] [] f' rfl).2 "x" 4
  obtain ⟨-, rfl⟩ := Prod.mk.inj (Option.some.inj hextend)
  exact ⟨_, rfl, u, hset, hfree (by cases Option.some.inj hown; rfl)⟩

end Family

end Scriptlet
