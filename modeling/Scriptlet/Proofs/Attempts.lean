/-
Reading a whole program: one attempt at a statement after the other, up to the end
of input.  What an attempt finds is kept unless the attempt has recorded a fault, and
where no attempt has, the tokens spell the program.
-/
import Scriptlet.Proofs.CandidSteps

namespace Scriptlet.Parser

open Parse Reader Seam

/-- One attempt at a statement of a program: where it began, what it found and where
it left off. -/
structure Attempt where
  start : Reader
  found : Option (Option Stmt)
  after : Reader

namespace Attempt

def IsFaulty (a : Attempt) : Prop := a.start.diagnostics.size < a.after.diagnostics.size

instance (a : Attempt) : Decidable a.IsFaulty :=
  inferInstanceAs (Decidable (a.start.diagnostics.size < a.after.diagnostics.size))

def kept (a : Attempt) : Option Stmt := if a.IsFaulty then none else a.found.join

def next (a : Attempt) : Reader :=
  if a.IsFaulty then a.after.skipToBoundary.advance else a.after.advance

end Attempt

/-- Whether reading a program from a reader on is some attempts, the last of which
leaves off before the end of input.  Each attempt comes to the same for all numbers
of calls that are enough. -/
inductive Attempts (limit : Nat) : Reader → List Attempt → Reader → Prop
  | finish {r : Reader} : r.current.isEof = true → Attempts limit r [] r
  | go {a : Attempt} {as : List Attempt} {last : Reader} : a.start.current.isEof = false →
      (∀ fuel, callsFor a.start.room ≤ fuel →
        statement limit fuel 0 a.start = (a.found, a.after)) →
      Attempts limit a.next as last → Attempts limit a.start (a :: as) last

/-- Whether a reading that gives up has recorded a fault. -/
def Owns {α : Type} (p : Parse α) (r : Reader) : Prop :=
  (p r).1 = none → r.diagnostics.size < (p r).2.diagnostics.size

/-- Whether every function of the parser that gives up at a reader has recorded a
fault there. -/
structure AllOwn (limit fuel : Nat) (r : Reader) : Prop where
  expect : ∀ s, Owns (expect s) r
  expectName : Owns expectName r
  endStatement : Owns endStatement r
  optionalHint : Owns optionalHint r
  moreParams : ∀ done, Owns (moreParams fuel done) r
  params : Owns (params fuel) r
  expression : ∀ nesting precedence, Owns (expression limit fuel nesting precedence) r
  operand : ∀ nesting, Owns (operand limit fuel nesting) r
  continued : ∀ nesting precedence left, Owns (continued limit fuel nesting precedence left) r
  extended : ∀ nesting left, Owns (extended limit fuel nesting left) r
  expressions : ∀ nesting closing, Owns (expressions limit fuel nesting closing) r
  moreExpressions : ∀ nesting closing done,
    Owns (moreExpressions limit fuel nesting closing done) r
  block : ∀ nesting, Owns (block limit fuel nesting) r
  blockStatements : ∀ nesting opened done,
    Owns (blockStatements limit fuel nesting opened done) r
  statement : ∀ nesting, Owns (statement limit fuel nesting) r
  expressionStatement : ∀ nesting, Owns (expressionStatement limit fuel nesting) r
  function : ∀ nesting, Owns (function limit fuel nesting) r
  classStatement : ∀ nesting, Owns (classStatement limit fuel nesting) r
  classMethods : ∀ nesting opened done, Owns (classMethods limit fuel nesting opened done) r
  choice : ∀ nesting start done, Owns (choice limit fuel nesting start done) r

theorem Owns.of_candid {α : Type} {n : Nat} {S : Reader → α → Reader → Prop} {p q : Parse α}
    {r : Reader} (h : Candid n S p q) (hr : r.Ends) (hroom : r.room < n) : Owns p r :=
  (h r hr hroom).2.1.owns

theorem owns_expectName (r : Reader) : Owns expectName r := by
  unfold Owns expectName
  split
  · nofun
  · exact fun _ => refuseAhead_grows (α := Ident) _ r

/-- With calls enough no function of the parser gives up in silence. -/
theorem allOwn {limit fuel : Nat} {r : Reader} (hr : r.Ends) (hfuel : callsFor r.room ≤ fuel) :
    AllOwn limit fuel r := by
  have h := allCandid limit 0 fuel
  have hroom : r.room < r.room + 2 := by omega
  have hcalls : 8 * (r.room + 2) ≤ fuel := by
    unfold callsFor at hfuel
    omega
  exact {
    expect := fun s => .of_candid (.expect s) hr hroom
    expectName := owns_expectName r
    endStatement := .of_candid .endStatement hr hroom
    optionalHint := .of_candid candid_optionalHint hr hroom
    moreParams := fun done => .of_candid (candid_moreParams 0 (by omega) done) hr hroom
    params := .of_candid (candid_params 0 (by omega)) hr hroom
    expression := fun _ _ => .of_candid (h.expression _ _ (by omega)) hr hroom
    operand := fun _ => .of_candid (h.operand _ (by omega)) hr hroom
    continued := fun _ _ _ => .of_candid (h.continued _ _ _ (by omega)) hr hroom
    extended := fun _ _ => .of_candid (h.extended _ _ (by omega)) hr hroom
    expressions := fun _ _ => .of_candid (h.expressions _ _ (by omega) (by omega)) hr hroom
    moreExpressions := fun _ _ _ => .of_candid (h.moreExpressions _ _ _ (by omega)) hr hroom
    block := fun _ => .of_candid (h.block _ (by omega) (by omega)) hr hroom
    blockStatements := fun _ _ _ => .of_candid (h.blockStatements _ _ _ (by omega)) hr hroom
    statement := fun _ => .of_candid (h.statement _ (by omega)) hr hroom
    expressionStatement := fun _ => .of_candid (h.expressionStatement _ (by omega)) hr hroom
    function := fun _ => .of_candid (h.function _ (by omega)) hr hroom
    classStatement := fun _ => .of_candid (h.classStatement _ (by omega)) hr hroom
    classMethods := fun _ _ _ => .of_candid (h.classMethods _ _ _ (by omega)) hr hroom
    choice := fun _ _ _ => .of_candid (h.choice _ _ _ (by omega) (by omega)) hr hroom }

/-- A statement comes to the same for all numbers of calls that are enough. -/
theorem statement_steady (limit : Nat) {fuel : Nat} {r : Reader} (hr : r.Ends)
    (hfuel : 8 * r.room + 5 ≤ fuel) :
    statement limit fuel 0 r = statement limit (8 * r.room + 5) 0 r := by
  have h := (allCandid limit (fuel - (8 * r.room + 5)) (8 * r.room + 5)).statement
    (n := r.room + 1) 0 (by omega) r hr (Nat.lt_succ_self _)
  rw [Nat.sub_add_cancel hfuel] at h
  exact h.1

def attemptAt (limit : Nat) (r : Reader) : Attempt :=
  ⟨r, (statement limit (8 * r.room + 5) 0 r).1, (statement limit (8 * r.room + 5) 0 r).2⟩

/-- An attempt has not gone back, and if it has recorded no fault it has read a
statement or a lone semicolon. -/
theorem attemptAt_candid (limit : Nat) {r : Reader} (hr : r.Ends) :
    r.Leads ((attemptAt limit r).found, (attemptAt limit r).after) ∧
      ∀ found, (attemptAt limit r).found = some found → ¬(attemptAt limit r).IsFaulty →
        From (fun found ts => LinesSpelt found.toList ts) r found (attemptAt limit r).after := by
  obtain ⟨-, hleads, htells⟩ := (allCandid limit 0 (8 * r.room + 5)).statement
    (n := r.room + 1) 0 (by omega) r hr (Nat.lt_succ_self _)
  refine ⟨hleads, fun found hfound hquiet => ?_⟩
  exact htells found (attemptAt limit r).after (Prod.ext hfound rfl) (Nat.not_lt.mp hquiet)

/-- The next attempt begins further on. -/
theorem next_leads (limit : Nat) {r : Reader} (hr : r.Ends) :
    (attemptAt limit r).next.coming <:+ r.coming ∧
      (attemptAt limit r).next.room ≤ r.room - 1 := by
  have hleads := (attemptAt_candid limit hr).1
  have hends := hr.of_suffix hleads.behind
  have hroom : (attemptAt limit r).after.room ≤ r.room := hleads.room
  unfold Attempt.next
  split
  · have hskip := Reader.Leads.skipToBoundary hends ()
    have hless : (attemptAt limit r).after.skipToBoundary.room ≤ (attemptAt limit r).after.room :=
      hskip.room
    have hmoved : (attemptAt limit r).after.skipToBoundary.advance.room ≤
        (attemptAt limit r).after.skipToBoundary.room - 1 :=
      room_advance (hends.of_suffix hskip.behind)
    refine ⟨(coming_advance _).trans (hskip.behind.trans hleads.behind), ?_⟩
    omega
  · have hmoved : (attemptAt limit r).after.advance.room ≤ (attemptAt limit r).after.room - 1 :=
      room_advance hends
    refine ⟨(coming_advance _).trans hleads.behind, ?_⟩
    omega

variable {limit : Nat}

/-- One round of reading a program is one attempt. -/
theorem programStatements_attempt {fuel : Nat} {r : Reader} (hr : r.Ends)
    (heof : r.current.isEof = false) (hfuel : 8 * r.room + 5 ≤ fuel) (done : List Stmt) :
    programStatements limit (fuel + 1) done r =
      programStatements limit fuel ((attemptAt limit r).kept.toList ++ done)
        (attemptAt limit r).next := by
  have hsteady := statement_steady limit hr hfuel
  by_cases hfaulty : (attemptAt limit r).IsFaulty
  · have hsize : r.diagnostics.size < (statement limit fuel 0 r).2.diagnostics.size := by
      rw [hsteady]
      exact hfaulty
    rw [programStatements_fault heof hsize, hsteady, Attempt.kept, Attempt.next, if_pos hfaulty,
      if_pos hfaulty]
    rfl
  · have hread : statement limit fuel 0 r =
        ((attemptAt limit r).found, (attemptAt limit r).after) := hsteady
    rw [programStatements_found heof hread hfaulty, Attempt.kept, Attempt.next, if_neg hfaulty,
      if_neg hfaulty]

/-- A program is read in attempts, however many calls it is given, if they are
enough: each attempt leaves less room. -/
theorem programStatements_attempts (limit : Nat) {r : Reader} (hr : r.Ends) :
    ∃ as last, Attempts limit r as last ∧ ∀ fuel done, 8 * r.room + 6 ≤ fuel →
      programStatements limit fuel done r =
        (done.reverse ++ as.filterMap Attempt.kept, last) := by
  induction hroom : r.room using Nat.strongRecOn generalizing r with
  | ind room ih =>
      cases heof : r.current.isEof with
      | true =>
          refine ⟨[], r, .finish heof, fun fuel done _ => ?_⟩
          rw [programStatements_eof heof, List.filterMap_nil, List.append_nil]
      | false =>
          have hpos := room_pos heof
          obtain ⟨hsuffix, hless⟩ := next_leads limit hr
          obtain ⟨as, last, has, hreads⟩ :=
            ih (attemptAt limit r).next.room (by omega) (hr.of_suffix hsuffix) rfl
          refine ⟨attemptAt limit r :: as, last, .go (a := attemptAt limit r) heof ?_ has, ?_⟩
          · intro fuel hfuel
            have hcalls : 8 * (r.room + 4) ≤ fuel := hfuel
            have henough : 8 * r.room + 5 ≤ fuel := by omega
            exact statement_steady limit hr henough
          · intro fuel done hfuel
            obtain ⟨fuel, rfl⟩ : ∃ k, fuel = k + 1 := ⟨fuel - 1, by omega⟩
            rw [programStatements_attempt hr heof (by omega), hreads fuel _ (by omega)]
            rw [List.reverse_append, List.append_assoc]
            cases hkept : (attemptAt limit r).kept with
            | none => rw [List.filterMap_cons_none hkept]; rfl
            | some s => rw [List.filterMap_cons_some hkept]; rfl

theorem Attempts.isEof {r last : Reader} {as : List Attempt} (h : Attempts limit r as last) :
    last.current.isEof = true := by
  induction h with
  | finish heof => exact heof
  | go _ _ _ ih => exact ih

theorem Attempts.of_isEof {r last : Reader} {as : List Attempt} (h : Attempts limit r as last)
    (heof : r.current.isEof = true) : as = [] ∧ last = r := by
  cases h with
  | finish _ => exact ⟨rfl, rfl⟩
  | go heof' _ _ =>
      rw [heof] at heof'
      exact Bool.noConfusion heof'

/-- An attempt is that at the statement where it begins. -/
theorem eq_attemptAt {a : Attempt} (hstart : a.start.Ends)
    (hread : ∀ fuel, callsFor a.start.room ≤ fuel →
      statement limit fuel 0 a.start = (a.found, a.after)) : a = attemptAt limit a.start := by
  have hcalls : callsFor a.start.room = 8 * (a.start.room + 4) := rfl
  have hsteady : statement limit (callsFor a.start.room) 0 a.start =
      statement limit (8 * a.start.room + 5) 0 a.start := statement_steady limit hstart (by omega)
  have hsame := (hread _ (Nat.le_refl _)).symm.trans hsteady
  unfold attemptAt
  rw [← hsame]

/-- Each attempt of a program is that at the statement where it begins, which is
before the end of input. -/
theorem Attempts.attempts {r last : Reader} {as : List Attempt} (h : Attempts limit r as last)
    (hr : r.Ends) : ∀ a ∈ as, a.start.Ends ∧ a.start.current.isEof = false ∧
      a = attemptAt limit a.start := by
  induction h with
  | finish _ => exact fun a ha => absurd ha List.not_mem_nil
  | @go a as last heof hread _ ih =>
      have ha : a = attemptAt limit a.start := eq_attemptAt hr hread
      have hnext : a.next.Ends := by
        rw [ha]
        exact hr.of_suffix (next_leads limit hr).1
      intro b hb
      rcases List.mem_cons.mp hb with rfl | hb
      · exact ⟨hr, heof, ha⟩
      · exact ih hnext b hb

/-- A statement is kept of an attempt exactly if it has recorded no fault, a lone
semicolon apart. -/
theorem isSome_kept_attemptAt (limit : Nat) {r : Reader} (hr : r.Ends) :
    (attemptAt limit r).kept.isSome = true ↔
      ¬(attemptAt limit r).IsFaulty ∧ r.current.isSign .semicolon = false := by
  obtain ⟨hleads, hquiet⟩ := attemptAt_candid limit hr
  unfold Attempt.kept
  by_cases hfaulty : (attemptAt limit r).IsFaulty
  · rw [if_pos hfaulty]
    exact ⟨fun h => absurd h Bool.noConfusion, fun h => absurd hfaulty h.1⟩
  rw [if_neg hfaulty]
  have hsome : (attemptAt limit r).found ≠ none := fun hnone => hfaulty (hleads.owns hnone)
  obtain ⟨found, hfound⟩ := Option.ne_none_iff_exists'.mp hsome
  obtain ⟨-, ts, -, hspelt⟩ := hquiet found hfound hfaulty
  rw [hfound]
  cases found with
  | none =>
      have hsign : r.current.isSign .semicolon = true := by
        cases hspelt with
        | empty hsign _ => exact hsign
      rw [hsign]
      exact ⟨fun h => absurd h Bool.noConfusion, fun h => absurd h.2 Bool.noConfusion⟩
  | some s =>
      refine ⟨fun _ => ⟨hfaulty, Bool.eq_false_iff.mpr fun hsign => ?_⟩, fun _ => rfl⟩
      have hread : statement limit (8 * r.room + 5) 0 r = (some none, r) := by
        rw [statement, counted_eq, current_bind, kind_of_isSign hsign]
        rfl
      have hnone : (attemptAt limit r).found = some none := congrArg Prod.fst hread
      exact Option.some_ne_none s (Option.some.inj (hfound.symm.trans hnone))

theorem next_grows (limit : Nat) {r : Reader} (hr : r.Ends) :
    r.diagnostics.size ≤ (attemptAt limit r).next.diagnostics.size := by
  have hgrows := (attemptAt_candid limit hr).1.grows
  unfold Attempt.next
  split
  · rw [diagnostics_advance, diagnostics_skipToBoundary]
    exact hgrows
  · rw [diagnostics_advance]
    exact hgrows

theorem Attempts.grows {r last : Reader} {as : List Attempt} (h : Attempts limit r as last)
    (hr : r.Ends) : r.diagnostics.size ≤ last.diagnostics.size := by
  induction h with
  | finish _ => exact Nat.le_refl _
  | @go a as last _ hread _ ih =>
      have ha : a = attemptAt limit a.start := eq_attemptAt hr hread
      have hnext := next_leads limit hr
      have hfirst := next_grows limit hr
      rw [← ha] at hnext hfirst
      exact Nat.le_trans hfirst (ih (hr.of_suffix hnext.1))

/-- Where no attempt at a program has recorded a fault, its tokens up to the end of
input spell the statements that were kept. -/
theorem Attempts.spelt {r last : Reader} {as : List Attempt} (h : Attempts limit r as last)
    (hr : r.Ends) (hquiet : last.diagnostics.size ≤ r.diagnostics.size) :
    ∃ ts rest, r.current :: r.coming = ts ++ last.current :: rest ∧
      LinesSpelt (as.filterMap Attempt.kept) ts := by
  induction h with
  | @finish r _ => exact ⟨[], r.coming, rfl, .nil⟩
  | @go a as last heof hread hrest ih =>
      have ha : a = attemptAt limit a.start := eq_attemptAt hr hread
      obtain ⟨hleads, htells⟩ := attemptAt_candid limit hr
      have hbehind := (next_leads limit hr).1
      have hgrows := next_grows limit hr
      rw [← ha] at hleads htells hbehind hgrows
      have hends := hr.of_suffix hbehind
      have hlater := hrest.grows hends
      have hclean : ¬a.IsFaulty := by
        intro hfaulty
        have hsize : a.next.diagnostics.size = a.after.diagnostics.size := by
          rw [Attempt.next, if_pos hfaulty, diagnostics_advance, diagnostics_skipToBoundary]
        exact Nat.lt_irrefl _ (Nat.lt_of_lt_of_le hfaulty (by omega))
      have hnext : a.next = a.after.advance := if_neg hclean
      have hsome : a.found ≠ none := fun hnone => hclean (hleads.owns hnone)
      obtain ⟨found, hfound⟩ := Option.ne_none_iff_exists'.mp hsome
      obtain ⟨-, ts, hts, hspelt⟩ := htells found hfound hclean
      have hmoves := moves_advance (hr.of_suffix hleads.behind)
      have hkept : (a :: as).filterMap Attempt.kept =
          found.toList ++ as.filterMap Attempt.kept := by
        have hfirst : a.kept = found := by
          rw [Attempt.kept, if_neg hclean, hfound]
          rfl
        cases found with
        | none => rw [List.filterMap_cons_none hfirst]; rfl
        | some s => rw [List.filterMap_cons_some hfirst]; rfl
      rw [hkept]
      cases hahead : a.after.ahead.isEof with
      | true =>
          -- Nothing is left behind this attempt.
          have hfinal : a.next.current.isEof = true := by
            rw [hnext, current_advance]
            exact hahead
          obtain ⟨rfl, rfl⟩ := hrest.of_isEof hfinal
          refine ⟨a.start.current :: ts, a.after.rest, ?_, ?_⟩
          · rw [hts, hnext, current_advance]
            rfl
          · rw [List.filterMap_nil, List.append_nil]
            exact hspelt
      | false =>
          obtain ⟨us, rest, hus, hlines⟩ := ih hends (Nat.le_trans hquiet hgrows)
          refine ⟨a.start.current :: ts ++ us, rest, ?_, hspelt.append hlines⟩
          rw [hts, List.append_assoc, ← hus, hnext]
          exact congrArg (fun us => a.start.current :: (ts ++ us)) (hmoves.coming hahead)

/-- What reading a program comes to: its attempts, and what they say of the
program. -/
structure ReadCandidly (limit : Nat) (tokens : List Token) (as : List Attempt) (last : Reader) :
    Prop where
  /-- The attempts follow one another up to the end of input, -/
  attempts : Attempts limit (ofTokens tokens) as last
  ends : last.current.isEof = true
  /-- and the program is what they have kept, however many calls more there are. -/
  reads : ∀ fuel, callsFor tokens.length ≤ fuel →
    programStatements limit fuel [] (ofTokens tokens) = (as.filterMap Attempt.kept, last)
  /-- A statement is kept exactly if the attempt at it has recorded no fault. -/
  keeps : ∀ a ∈ as, a.start.current.isSign .semicolon = false →
    (a.kept.isSome = true ↔ a.after.diagnostics.size = a.start.diagnostics.size)
  passes : ∀ a ∈ as, a.start.current.isSign .semicolon = true →
    a.found = some none ∧ a.after = a.start
  /-- No function of the parser gives up in silence. -/
  owns : ∀ fuel (r : Reader), r.Ends → callsFor r.room ≤ fuel → AllOwn limit fuel r
  /-- Where there is no fault, the tokens spell what has been kept. -/
  spelt : last.diagnostics = #[] → ∃ ts rest, tokens = ts ++ last.current :: rest ∧
    LinesSpelt (as.filterMap Attempt.kept) ts

theorem current_ofTokens (t : Token) (ts : List Token) : (ofTokens (t :: ts)).current = t := by
  cases ts <;> rfl

theorem coming_ofTokens (t : Token) (ts : List Token) (e : Token) :
    (ofTokens (t :: (ts ++ [e]))).coming = ts ++ [e] := by
  cases ts <;> rfl

theorem ends_ofTokens (ts : List Token) {e : Token} (he : e.isEof = true) :
    (ofTokens (ts ++ [e])).Ends := by
  cases ts with
  | nil => exact ⟨e, rfl, he⟩
  | cons t ts =>
      refine ⟨e, ?_, he⟩
      rw [List.cons_append, coming_ofTokens, List.getLast?_concat]

theorem room_ofTokens (ts : List Token) (e : Token) :
    (ofTokens (ts ++ [e])).room ≤ (ts ++ [e]).length := by
  rcases ts with _ | ⟨t, _ | ⟨u, ts⟩⟩
  · exact room_le _
  · exact Nat.le_succ_of_le (room_le _)
  · exact Nat.le_succ_of_le (room_le _)

/-- Every program is read candidly, to its end. -/
theorem program_read_candidly (limit : Nat) (ts : List Token) {e : Token} (he : e.isEof = true) :
    ∃ as last, ReadCandidly limit (ts ++ [e]) as last := by
  have hr := ends_ofTokens ts he
  obtain ⟨as, last, hattempts, hreads⟩ := programStatements_attempts limit hr
  refine ⟨as, last, hattempts, hattempts.isEof, fun fuel hfuel => ?_, ?_, ?_,
    fun fuel r hends hcalls => allOwn hends hcalls, fun hquiet => ?_⟩
  · have hroom := room_ofTokens ts e
    have hcalls : 8 * ((ts ++ [e]).length + 4) ≤ fuel := hfuel
    rw [hreads fuel [] (by omega)]
    rfl
  · intro a hmem hsign
    obtain ⟨hstart, -, ha⟩ := hattempts.attempts hr a hmem
    have hkept := isSome_kept_attemptAt limit hstart
    have hgrows := (attemptAt_candid limit hstart).1.grows
    rw [← ha] at hkept hgrows
    rw [hkept, Attempt.IsFaulty, Nat.not_lt]
    exact ⟨fun h => Nat.le_antisymm h.1 hgrows, fun h => ⟨Nat.le_of_eq h, hsign⟩⟩
  · intro a hmem hsign
    obtain ⟨-, -, ha⟩ := hattempts.attempts hr a hmem
    have hread : statement limit (8 * a.start.room + 5) 0 a.start = (some none, a.start) := by
      rw [statement, counted_eq, current_bind, kind_of_isSign hsign]
      rfl
    rw [ha, attemptAt, hread]
    exact ⟨rfl, rfl⟩
  · have hspelt := hattempts.spelt hr (by rw [hquiet]; exact Nat.zero_le _)
    cases ts with
    | nil =>
        obtain ⟨rfl, rfl⟩ := hattempts.of_isEof he
        exact ⟨[], [], rfl, .nil⟩
    | cons t ts =>
        rw [List.cons_append, current_ofTokens, coming_ofTokens] at hspelt
        exact hspelt

/-- A name and a semicolon are read without a fault, and the name is kept. -/
theorem program_read_candidly_name :
    let x : Token := ⟨.name false, "x", ⟨1, 1⟩⟩
    let semicolon : Token := ⟨.sign .semicolon, ";", ⟨1, 2⟩⟩
    let e : Token := ⟨.eof, "", ⟨1, 3⟩⟩
    e.isEof = true ∧ ∃ as last, ReadCandidly maxNesting [x, semicolon, e] as last ∧
      (as.filterMap Attempt.kept).length = 1 ∧ last.diagnostics = #[] := by
  intro x semicolon e
  refine ⟨rfl, ?_⟩
  obtain ⟨as, last, h⟩ := program_read_candidly maxNesting [x, semicolon] (e := e) rfl
  have hreads := h.reads (callsFor 3) (Nat.le_refl _)
  refine ⟨as, last, h, ?_, ?_⟩
  · exact (congrArg (fun x => x.1.length) hreads).symm
  · exact (congrArg (fun x => x.2.diagnostics) hreads).symm

end Scriptlet.Parser
