/-
The text of a value as its hook gives it.  The hook asks for the texts of what a value holds
one by one and so nests as deep as the value does; where that is deep enough it comes to the
text in which values are shown, and where a value holds itself it never is.
-/
import Scriptlet.Proofs.Asking
import Scriptlet.Proofs.Inspection

namespace Scriptlet

/-- The operation behind the text hook of a value. -/
def Value.rendering : Value → Builtin
  | .int _ _ => .int .display
  | .float _ _ => .float .display
  | .str _ _ => .text .display
  | .bool _ => .bool .display
  | .null => .null .display
  | .none | .some _ _ => .option .display
  | .range _ _ _ => .rangeOf .display
  | .list _ => .list .display
  | _ => .defaultRepr

/-- Texts between brackets, with commas between them. -/
def Text.listed (texts : List Text) : Text :=
  Text.ofString "[" ++ Text.join (Text.ofString ", ") texts ++ Text.ofString "]"

def Text.inOption (text : Text) : Text := Text.ofString "Some(" ++ text ++ Text.ofString ")"

namespace Store

variable {s : Store} {room : Nat} {v w : Value}

/-- The text of a value, where so many hooks may nest; none if that is not enough. -/
def render? (s : Store) : Nat → Value → Option Text
  | 0, _ => none
  | room + 1, .list id => ((s.listItems id).toList.mapM (s.render? room)).map Text.listed
  | room + 1, .some v _ => (s.render? room v).map Text.inOption
  | _ + 1, v => some (s.flatText v)

theorem render?_flat (room : Nat) (h : v.isFlat = true) :
    s.render? (room + 1) v = some (s.flatText v) := by
  cases v with
  | list id | some v id => exact nomatch h
  | _ => rfl

theorem mapM_ne_none_of_mem {α β : Type} {f : α → Option β} {xs : List α}
    (h : xs.mapM f ≠ none) {x : α} (hx : x ∈ xs) : f x ≠ none := by
  induction xs with
  | nil => exact nomatch hx
  | cons y ys ih =>
      rw [List.mapM_cons] at h
      cases hy : f y with
      | none => simp [hy] at h
      | some z =>
          rcases List.mem_cons.mp hx with rfl | hmem
          · rw [hy]
            exact nofun
          · refine ih (fun hnone => h ?_) hmem
            simp [hy, hnone]

theorem render?_of_contains (h : s.render? room v ≠ none) (hcontains : s.Contains v w) :
    ∃ less, less < room ∧ s.render? less w ≠ none := by
  cases room with
  | zero => exact absurd rfl h
  | succ room =>
      refine ⟨room, Nat.lt_succ_self room, ?_⟩
      cases hcontains with
      | inside v id => exact fun hnone => h (by rw [render?, hnone, Option.map_none])
      | element hmem =>
          rw [render?] at h
          exact mapM_ne_none_of_mem (fun hnone => h (by rw [hnone, Option.map_none])) hmem

/-- Whatever a value holds takes less room than the value. -/
theorem render?_of_transGen (h : s.render? room v ≠ none)
    (hcontains : Relation.TransGen s.Contains v w) :
    ∃ less, less < room ∧ s.render? less w ≠ none := by
  induction hcontains with
  | single hcontains => exact render?_of_contains h hcontains
  | tail _ hcontains ih =>
      obtain ⟨less, hless, hw⟩ := ih
      obtain ⟨least, hleast, hx⟩ := render?_of_contains hw hcontains
      exact ⟨least, hleast.trans hless, hx⟩

/-- For a list that holds itself no room is enough. -/
theorem render?_cyclic {id : Nat} (h : s.Cyclic id) (room : Nat) :
    s.render? room (.list id) = none := by
  induction room using Nat.strong_induction_on with
  | _ room ih =>
      by_contra hsome
      obtain ⟨less, hless, hagain⟩ := render?_of_transGen hsome h
      exact hagain (ih less hless)

theorem render?_reaches_cyclic {id : Nat} (hv : s.Reaches v (.list id)) (h : s.Cyclic id)
    (room : Nat) : s.render? room v = none := by
  by_contra hsome
  rcases Relation.reflTransGen_iff_eq_or_transGen.mp hv with rfl | hbelow
  · exact hsome (render?_cyclic h room)
  · obtain ⟨less, -, hlist⟩ := render?_of_transGen hsome hbelow
    exact hlist (render?_cyclic h less)

theorem map_eq_of_mapM {α β : Type} {f : α → Option β} {g : α → β} {xs : List α} {ys : List β}
    (h : xs.mapM f = some ys) (hfg : ∀ x ∈ xs, ∀ y, f x = some y → g x = y) : xs.map g = ys := by
  induction xs generalizing ys with
  | nil =>
      obtain rfl := Option.some.inj h
      rfl
  | cons x xs ih =>
      obtain ⟨hx, hxs⟩ := List.forall_mem_cons.mp hfg
      rw [List.mapM_cons] at h
      obtain ⟨y, hy, h⟩ := Option.bind_eq_some_iff.mp h
      obtain ⟨zs, hzs, h⟩ := Option.bind_eq_some_iff.mp h
      obtain rfl := Option.some.inj h
      rw [List.map_cons, hx y hy, ih hzs hxs]

/-- Where the room is enough, the text is that of the value inside any lists that it does not
reach. -/
theorem textInside_of_render? {text : Text} {path : List Nat}
    (h : s.render? room v = some text) (hpath : ∀ id ∈ path, ¬ s.Reaches v (.list id)) :
    s.textInside path v = text := by
  induction room generalizing v text path with
  | zero => exact nomatch h
  | succ room ih =>
      cases v with
      | list id =>
          have hid : id ∉ path := fun hmem => hpath id hmem .refl
          have hacyclic : ¬ s.Cyclic id := fun hcyclic => by
            rw [render?_cyclic hcyclic] at h
            exact nomatch h
          rw [render?] at h
          obtain ⟨texts, htexts, rfl⟩ := Option.map_eq_some_iff.mp h
          rw [textInside_list s hid, Text.listed]
          congr 3
          refine map_eq_of_mapM htexts fun w hw text hrender => ih hrender ?_
          have hcontains : s.Contains (.list id) w := .element hw
          refine List.forall_mem_cons.mpr ⟨fun hreaches => ?_, fun id' hmem hreaches => ?_⟩
          · exact hacyclic (.head' hcontains hreaches)
          · exact hpath id' hmem (.head hcontains hreaches)
      | some w id =>
          rw [render?] at h
          obtain ⟨inner, hinner, rfl⟩ := Option.map_eq_some_iff.mp h
          rw [textInside_some, Text.inOption, ih hinner fun id' hmem hreaches =>
            hpath id' hmem (.head (.inside w id) hreaches)]
      | _ =>
          rw [render?_flat room rfl] at h
          rw [textInside_flat s path rfl, Option.some.inj h]

theorem display_of_render? {text : Text} (h : s.render? room v = some text) :
    s.display v = text :=
  textInside_of_render? h (List.forall_mem_nil _)

/-- The store once the next identity is another one. -/
def aged (s : Store) (fresh : Nat) : Store := { s with fresh := fresh }

/-- Whether a value has a text of its own: a thing of the host, or an instance with a field
that gives one. -/
def HasOwnText (s : Store) : Value → Prop
  | .host _ _ => True
  | .instance id => s.field? id HookCheck.text.hook ≠ none
  | _ => False

/-- Whether a value neither is nor holds anything that has a text of its own. -/
def PlainText (s : Store) (v : Value) : Prop := ∀ w, s.Reaches v w → ¬ s.HasOwnText w

theorem PlainText.of_contains (h : s.PlainText v) (hw : s.Contains v w) : s.PlainText w :=
  fun x hx => h x (.head hw hx)

theorem member_text (h : ¬ s.HasOwnText v) (n : Nat) :
    (s.aged n).member v HookCheck.text.hook = (.ok (.builtin v.rendering), s.aged n) := by
  cases v with
  | host p id => exact absurd trivial h
  | «instance» id =>
      have hfield : (s.aged n).field? id HookCheck.text.hook = none := not_not.mp h
      rw [member, hfield]
      rfl
  | «module» m => cases m <;> rfl
  | _ => rfl

theorem display_flat (n : Nat) (h : v.isFlat = true) : (s.aged n).display v = s.flatText v := by
  have hsame : (s.aged n).flatText v = s.flatText v := by cases v <;> rfl
  rw [display, textInside_flat (s.aged n) [] h, hsame]

end Store

/-- How asking for a text ends that is given as the string of an identity, or not for want of
depth. -/
def Outcome.ofRendering (id : Nat) : Option Text → Outcome
  | some text => .value (.str text id)
  | none => .failed (Failure.ofFault .tooDeep)

namespace Task

variable {limits : Limits} {t : Task} {s : Store} {v : Value}

/-- That a thread comes to a text, or fails for want of depth, and leaves the store as it was
but for identities. -/
def GetsText (limits : Limits) (t : Task) (s : Store) (r : Option Text) (u : Task × Store) :
    Prop :=
  ∃ id n, t.Gets limits (.ofRendering id r) (s.aged n) u.1 u.2

theorem getsText_answered (text : Text) (n : Nat) :
    t.GetsText limits s (some text) (t.answered ((s.aged n).giveText text)) :=
  ⟨n, n + 1, .already⟩

/-- Going on with the text of a list gets what asking for the texts of its elements in turn
gives. -/
theorem getsText_listText {p : Value → Option Text} {rest : List Value}
    (hask : ∀ v ∈ rest, ∀ (u : Task) (n : Nat), u.depth = t.depth →
      u.GetsText limits s (p v) (u.askText v, s.aged n)) (done : List Text) (n : Nat) :
    t.GetsText limits s ((rest.mapM p).map fun texts => Text.listed (done.reverse ++ texts))
      (t.listText (s.aged n) done rest) := by
  induction rest generalizing done n with
  | nil =>
      have hdone : t.GetsText limits s (some (Text.listed done.reverse)) _ :=
        getsText_answered _ n
      simpa [listText, Text.listed] using hdone
  | cons v rest ih =>
      obtain ⟨hfirst, hrest⟩ := List.forall_mem_cons.mp hask
      obtain ⟨id, m, hv⟩ := hfirst (t.pushed (.listText done rest)) n rfl
      rw [List.mapM_cons, listText]
      cases hp : p v with
      | none =>
          rw [hp] at hv
          exact ⟨0, m, hv.pop rfl .already⟩
      | some text =>
          rw [hp] at hv
          have hjoined : ((some text).bind fun first => (rest.mapM p).bind fun texts =>
              some (first :: texts)).map (fun texts => Text.listed (done.reverse ++ texts)) =
              (rest.mapM p).map fun texts => Text.listed ((text :: done).reverse ++ texts) := by
            cases rest.mapM p <;> simp
          obtain ⟨id', n', hlist⟩ := ih hrest (text :: done) m
          rw [← hjoined] at hlist
          exact ⟨id', n', hv.pop (f := .listText done rest) rfl hlist⟩

/-- What the text hook of a value that holds no others answers, if it does not call back. -/
theorem answer_rendering (hflat : v.isFlat = true) (hback : v.rendering.callsBack = false)
    (n : Nat) : v.rendering.answer (s.aged n) [v] = (s.aged n).giveText (s.flatText v) := by
  have hdisplay := Store.display_flat (s := s) n hflat
  cases v with
  | none => exact nomatch hback
  | list id | some v id => exact nomatch hflat
  | str text id => rfl
  | _ =>
      rw [← hdisplay]
      rfl

theorem getsText_flat (hflat : v.isFlat = true) (hback : v.rendering.callsBack = false)
    (room n : Nat) :
    t.GetsText limits s (s.render? (room + 1) v)
      (t.doing (.call (.builtin v.rendering) [v]), s.aged n) := by
  have harity : v.rendering.arity = some 1 := by cases v <;> rfl
  rw [Store.render?_flat room hflat]
  exact ⟨n, n + 1, gets_answer harity hback (answer_rendering hflat hback n)⟩

/-- The text hook gets what asking for the text of all that the value holds gives. -/
theorem getsText_rendering {room : Nat} (hask : ∀ w, s.Contains v w → ∀ (u : Task) (n : Nat),
    u.depth = t.depth → u.GetsText limits s (s.render? room w) (u.askText w, s.aged n)) (n : Nat) :
    t.GetsText limits s (s.render? (room + 1) v)
      (t.doing (.call (.builtin v.rendering) [v]), s.aged n) := by
  cases v with
  | list id =>
      have hlist : t.GetsText limits s _ _ :=
        getsText_listText (fun w hw => hask w (.element hw)) [] n
      obtain ⟨id', n', hlist⟩ := hlist
      exact ⟨id', n', gets_callBack rfl rfl hlist⟩
  | some w id =>
      obtain ⟨id', m, hw⟩ := hask w (.inside w id) (t.pushed .someText) n rfl
      rw [Store.render?]
      cases hr : s.render? room w with
      | none =>
          rw [hr] at hw
          exact ⟨0, m, gets_callBack rfl rfl (hw.pop rfl .already)⟩
      | some text =>
          rw [hr] at hw
          exact ⟨m, m + 1, gets_callBack rfl rfl (hw.pop rfl .already)⟩
  | none => exact ⟨n, n + 1, gets_callBack rfl rfl .already⟩
  | _ => exact getsText_flat rfl rfl room n

/-- Asking for the text of a value that has none of its own. -/
theorem getsText_askText {room : Nat} (hroom : limits.maxDepth - t.depth = room)
    (hv : s.PlainText v) (n : Nat) :
    t.GetsText limits s (s.render? room v) (t.askText v, s.aged n) := by
  have hends : ∀ (r : Option Text) (id : Nat), (∃ f, Outcome.ofRendering id r = .failed f) ∨
      ∃ v, Outcome.ofRendering id r = .value v ∧ HookCheck.text.accepts v = true := by
    rintro (_ | text) id
    · exact .inl ⟨_, rfl⟩
    · exact .inr ⟨_, rfl, rfl⟩
  induction room generalizing t v n with
  | zero =>
      have hhook : (t.pushed (.check .text v)).Gets limits _ (s.aged n) _ (s.aged n) :=
        gets_hook_tooDeep (t := t.pushed (.check .text v)) (Nat.sub_eq_zero_iff_le.mp hroom)
          (s.aged n) v HookCheck.text.hook []
      exact ⟨0, n, hhook.check (hends none 0)⟩
  | succ room ih =>
      have hdeep : (t.pushed (.check .text v)).depth < limits.maxDepth := by
        dsimp only [pushed]
        omega
      have hcall : (t.pushed (.check .text v)).hooked.GetsText limits s (s.render? (room + 1) v)
          ((t.pushed (.check .text v)).hooked.doing (.call (.builtin v.rendering) [v]),
            s.aged n) := by
        refine getsText_rendering (fun w hw u m hu => ih ?_ (hv.of_contains hw) m) n
        rw [hu]
        dsimp only [hooked, pushed]
        omega
      obtain ⟨id, m, hcall⟩ := hcall
      have hhook := gets_hook hdeep (Store.member_text (hv v .refl) n) hcall
      exact ⟨id, m, hhook.check (hends _ id)⟩

end Task

/-- The text that the hook of a value gives is the one that the value is shown as.  Asking
for it fails only for want of depth, and always does so where a list holds itself that the
value reaches. -/
theorem hook_text_eq_display (limits : Limits) (s : Store) {v : Value} (hv : s.PlainText v)
    (t : Task) :
    ∃ (r : Option Text) (id n : Nat),
      (∀ o s', t.Gets limits o s' (t.askText v) s ↔
        o = .ofRendering id r ∧ s' = { s with fresh := n }) ∧
      (∀ text, r = some text → text = s.display v) ∧
      ((∃ list, s.Reaches v (.list list) ∧ s.Cyclic list) → r = none) := by
  have htext : t.GetsText limits s _ (_, s) := Task.getsText_askText rfl hv s.fresh
  obtain ⟨id, n, htext⟩ := htext
  refine ⟨_, id, n, fun o s' => htext.iff, fun text h => ?_, ?_⟩
  · exact (Store.display_of_render? h).symm
  · rintro ⟨list, hreaches, hcyclic⟩
    exact Store.render?_reaches_cyclic hreaches hcyclic _

/-- A list that holds another one twice. -/
def Store.twins : Store :=
  { bare with lists := #[#[.list 1, .list 1], #[.null]] }

theorem Store.twins_plainText : Store.twins.PlainText (.list 0) := by
  intro w hw
  have hclosed : w = .list 0 ∨ w = .list 1 ∨ w = .null := by
    refine hw.of_closed (P := fun w => w = .list 0 ∨ w = .list 1 ∨ w = .null) (.inl rfl) ?_
    rintro x y (rfl | rfl | rfl) (_ | hmem)
    · have hy : y ∈ [Value.list 1, .list 1] := hmem
      simp only [List.mem_cons, List.not_mem_nil, or_false, or_self] at hy
      exact .inr (.inl hy)
    · exact .inr (.inr (List.mem_singleton.mp hmem))
  obtain rfl | rfl | rfl := hclosed <;> exact not_false

/-- The hook of a list gives the text that the list is shown as, with what it holds twice in
full both times. -/
theorem hook_text_eq_display_of_twins :
    Store.twins.PlainText (.list 0) ∧ ∃ id n, (Task.idle "").Gets ⟨3, 0⟩
      (.value (.str (Store.twins.display (.list 0)) id)) { Store.twins with fresh := n }
      ((Task.idle "").askText (.list 0)) Store.twins := by
  have hplain := Store.twins_plainText
  have hroom : (⟨3, 0⟩ : Limits).maxDepth - (Task.idle "").depth = 3 := rfl
  obtain ⟨r, id, n, houtcome, hdisplay, -⟩ :=
    hook_text_eq_display ⟨3, 0⟩ Store.twins hplain (Task.idle "")
  obtain ⟨id', n', htext⟩ := Task.getsText_askText hroom hplain Store.twins.fresh
  obtain ⟨text, hrender⟩ : ∃ text, Store.twins.render? 3 (.list 0) = some text := ⟨_, rfl⟩
  rw [hrender] at htext
  obtain ⟨hr, -⟩ := (houtcome _ _).mp htext
  cases r with
  | none => exact nomatch hr
  | some shown =>
      have hgets := (houtcome _ _).mpr ⟨rfl, rfl⟩
      rw [← hdisplay shown rfl]
      exact ⟨hplain, id, n, hgets⟩

end Scriptlet
