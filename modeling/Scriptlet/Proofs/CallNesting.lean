/-
How deeply the calls of the parser nest.  A meter is kept of the calls that read an
expression, a block or a statement.  Expressions nest as deeply as the limit allows; each
block that is open adds its own call and that of a statement in it, and every block has a
brace of its own.
-/
import Scriptlet.Proofs.Attempts

namespace Scriptlet

/-- How many calls are active, and how many have been at once. -/
structure Meter where
  active : Nat
  most : Nat

instance : Account Meter where
  enter m := ⟨m.active + 1, max m.most (m.active + 1)⟩
  leave m := ⟨m.active - 1, m.most⟩

def openings (ts : List Token) : Nat := ts.countP (·.isSign .leftBrace)

theorem openings_suffix {ts us : List Token} (h : ts <:+ us) : openings ts ≤ openings us :=
  h.sublist.countP_le

namespace Reader

/-- A reader with an account of the calls. -/
def keeping {κ : Type} (r : Reader) (account : κ) : Reader κ :=
  ⟨r.current, r.ahead, r.rest, r.diagnostics, account⟩

@[simp] theorem ahead_keeping (r : Reader) (m : Meter) : (r.keeping m).ahead = r.ahead := rfl

@[simp] theorem closesAhead_keeping (r : Reader) (m : Meter) :
    (r.keeping m).closesAhead = r.closesAhead := rfl

@[simp] theorem breaksAhead_keeping (r : Reader) (m : Meter) :
    (r.keeping m).breaksAhead = r.breaksAhead := rfl

theorem advance_keeping (r : Reader) (m : Meter) : (r.keeping m).advance = r.advance.keeping m := by
  rcases r with ⟨t, u, _ | ⟨v, rest⟩, ds, ⟨⟩⟩ <;> rfl

theorem skipToBoundary_keeping (r : Reader) (m : Meter) :
    (r.keeping m).skipToBoundary = r.skipToBoundary.keeping m := by
  fun_induction skipToBoundary r with
  | case1 r hends =>
      rw [skipToBoundary]
      exact if_pos hends
  | case2 r hgoes hrest =>
      rw [skipToBoundary]
      refine (if_neg hgoes).trans ?_
      split
      · rfl
      · rename_i t ts hcons
        exact nomatch hrest.symm.trans hcons
  | case3 r hgoes t ts hrest _ ih =>
      rw [skipToBoundary]
      refine (if_neg hgoes).trans ?_
      split
      · rename_i hnil
        exact nomatch hrest.symm.trans hnil
      · rename_i hcons
        obtain ⟨rfl, rfl⟩ := List.cons.inj (hrest.symm.trans hcons)
        exact ih

theorem skipToBoundary_behind (r : Reader) : r.skipToBoundary.coming <:+ r.coming := by
  refine skipToBoundary_induct (P := fun r' => r'.coming <:+ r.coming) (List.suffix_refl _) ?_
  exact fun r' hr' => r'.coming_advance.trans hr'

end Reader

open Parse Reader

variable {α β : Type} {k : Nat}

/-- What a call counts is given back where it ends. -/
theorem counted_keeping {q : ParseOf Meter α} {r r' : Reader} {m m' : Meter} {found : Option α}
    (h : q (r.keeping (Account.enter m)) = (found, r'.keeping m')) :
    counted q (r.keeping m) = (found, r'.keeping (Account.leave m')) :=
  congrArg (fun x : Option α × Reader Meter =>
    (x.1, { x.2 with account := Account.leave x.2.account })) h

/-- Whether a reading does with a meter what another does without one, goes on, and
leaves the meter as it is. -/
def Uncounted (q : ParseOf Meter α) (p : Parse α) : Prop :=
  ∀ (r : Reader) (m : Meter),
    q (r.keeping m) = ((p r).1, (p r).2.keeping m) ∧ (p r).2.coming <:+ r.coming

namespace Uncounted

variable {q : ParseOf Meter α} {p : Parse α} {f : α → ParseOf Meter β} {g : α → Parse β}

theorem pure (a : α) : Uncounted (Pure.pure a) (Pure.pure a) :=
  fun _ _ => ⟨rfl, List.suffix_refl _⟩

theorem fail : Uncounted (Parse.fail : ParseOf Meter α) Parse.fail :=
  fun _ _ => ⟨rfl, List.suffix_refl _⟩

theorem current : Uncounted Parse.current Parse.current := fun _ _ => ⟨rfl, List.suffix_refl _⟩

theorem refuse (fault : SyntaxFault) (pos : Position) :
    Uncounted (Parse.refuse fault pos : ParseOf Meter α) (Parse.refuse fault pos) :=
  fun _ _ => ⟨rfl, List.suffix_refl _⟩

theorem refuseAhead (label : String) :
    Uncounted (Parse.refuseAhead label : ParseOf Meter α) (Parse.refuseAhead label) :=
  fun _ _ => ⟨rfl, List.suffix_refl _⟩

theorem refuseToken (t : Token) :
    Uncounted (Parse.refuseToken t : ParseOf Meter α) (Parse.refuseToken t) := by
  unfold Parse.refuseToken
  split <;> exact refuse _ _

theorem advance : Uncounted Parse.advance Parse.advance :=
  fun r m => ⟨congrArg (Prod.mk _) (r.advance_keeping m), r.coming_advance⟩

theorem recover : Uncounted Parse.recover Parse.recover :=
  fun r m => ⟨congrArg (Prod.mk _) (r.skipToBoundary_keeping m), r.skipToBoundary_behind⟩

theorem refuseDeep : Uncounted (Parse.refuseDeep : ParseOf Meter α) Parse.refuseDeep :=
  fun r m => ⟨congrArg (Prod.mk _) ((r.record _ _).skipToBoundary_keeping m),
    (r.record _ _).skipToBoundary_behind⟩

theorem bind (h : Uncounted q p) (hf : ∀ a, Uncounted (f a) (g a)) :
    Uncounted (q >>= f) (p >>= g) := by
  intro r m
  obtain ⟨hread, hbehind⟩ := h r m
  rcases hp : p r with ⟨_ | a, after⟩
  · rw [hp] at hread hbehind
    rw [bind_none hread, bind_none hp]
    exact ⟨rfl, hbehind⟩
  · rw [hp] at hread hbehind
    rw [bind_some hread, bind_some hp]
    exact ⟨(hf a after m).1, (hf a after m).2.trans hbehind⟩

theorem get {f : Reader Meter → ParseOf Meter β} {g : Reader → Parse β}
    (h : ∀ r m, Uncounted (f (r.keeping m)) (g r)) :
    Uncounted (Parse.get >>= f) (Parse.get >>= g) :=
  fun r m => h r m r m

theorem ite {c : Prop} [Decidable c] {q' : ParseOf Meter α} {p' : Parse α}
    (h : Uncounted q p) (h' : Uncounted q' p') :
    Uncounted (if c then q else q') (if c then p else p') := by
  split
  · exact h
  · exact h'

theorem expect (s : Sign) : Uncounted (Parse.expect s) (Parse.expect s) := by
  intro r m
  unfold Parse.expect
  rw [ahead_keeping]
  split
  · exact advance r m
  · exact refuseAhead _ r m

theorem expectName : Uncounted Parse.expectName Parse.expectName := by
  intro r m
  unfold Parse.expectName
  rw [ahead_keeping]
  split
  · exact ⟨congrArg (Prod.mk _) (r.advance_keeping m), r.coming_advance⟩
  · exact refuseAhead _ r m

theorem endStatement : Uncounted Parse.endStatement Parse.endStatement := by
  intro r m
  unfold Parse.endStatement
  rw [ahead_keeping, closesAhead_keeping, breaksAhead_keeping]
  split
  · exact advance r m
  · split
    · exact ⟨rfl, List.suffix_refl _⟩
    · split
      · exact refuseToken _ r m
      · exact refuse _ _ r m

theorem assignTo (start : Token) (equals : Position) (target value : Expr) :
    Uncounted (Parser.assignTo start equals target value)
      (Parser.assignTo start equals target value) := by
  unfold Parser.assignTo
  split
  · exact pure _
  · exact pure _
  · exact refuse _ _

theorem optionalHint : Uncounted Parser.optionalHint Parser.optionalHint :=
  get fun _ _ => ite (advance.bind fun _ => expectName.bind fun _ => pure _) (pure _)

theorem moreParams (fuel : Nat) (done : List Param) :
    Uncounted (Parser.moreParams fuel done) (Parser.moreParams fuel done) := by
  induction fuel generalizing done with
  | zero => exact fail
  | succ fuel ih =>
      rw [Parser.moreParams, Parser.moreParams]
      -- a repeated parameter is refused, and only then does the rest differ
      refine expectName.bind fun ident => ite ((refuse _ _).bind fun _ => ?_) ?_
      all_goals
        refine optionalHint.bind fun hint => get fun _ _ => ?_
        refine ite (advance.bind fun _ => get fun _ _ => ?_) ((expect _).bind fun _ => pure _)
        exact ite (advance.bind fun _ => pure _) (ih _)

theorem params (fuel : Nat) : Uncounted (Parser.params fuel) (Parser.params fuel) :=
  get fun _ _ => ite (advance.bind fun _ => pure _) (moreParams fuel [])

end Uncounted

/-- Whether a reading does with a meter what another does without one, and goes on, with
at most `k` calls active at once besides those before it and two for each opening brace
that is left. -/
def Meters (k : Nat) (q : ParseOf Meter α) (p : Parse α) : Prop :=
  ∀ (r : Reader) (m : Meter), r.Ends → ∃ m' : Meter,
    q (r.keeping m) = ((p r).1, (p r).2.keeping m') ∧ (p r).2.coming <:+ r.coming ∧
      m'.active = m.active ∧ m'.most ≤ max m.most (m.active + k + 2 * openings r.coming)

namespace Meters

variable {q : ParseOf Meter α} {p : Parse α} {f : α → ParseOf Meter β} {g : α → Parse β}

theorem of_uncounted (h : Uncounted q p) : Meters k q p :=
  fun r m _ => ⟨m, (h r m).1, (h r m).2, rfl, Nat.le_max_left _ _⟩

theorem mono {k' : Nat} (h : Meters k q p) (hle : k ≤ k') : Meters k' q p := by
  intro r m hr
  obtain ⟨m', hread, hbehind, hactive, hmost⟩ := h r m hr
  exact ⟨m', hread, hbehind, hactive, by omega⟩

theorem pure (a : α) : Meters k (Pure.pure a) (Pure.pure a) := of_uncounted (.pure a)

theorem refuse (fault : SyntaxFault) (pos : Position) :
    Meters k (Parse.refuse fault pos : ParseOf Meter α) (Parse.refuse fault pos) :=
  of_uncounted (.refuse fault pos)

theorem refuseAhead (label : String) :
    Meters k (Parse.refuseAhead label : ParseOf Meter α) (Parse.refuseAhead label) :=
  of_uncounted (.refuseAhead label)

theorem refuseToken (t : Token) :
    Meters k (Parse.refuseToken t : ParseOf Meter α) (Parse.refuseToken t) :=
  of_uncounted (.refuseToken t)

theorem bind (h : Meters k q p) (hf : ∀ a, Meters k (f a) (g a)) :
    Meters k (q >>= f) (p >>= g) := by
  intro r m hr
  obtain ⟨m', hread, hbehind, hactive, hmost⟩ := h r m hr
  rcases hp : p r with ⟨_ | a, after⟩
  · rw [hp] at hread hbehind
    rw [bind_none hread, bind_none hp]
    exact ⟨m', rfl, hbehind, hactive, hmost⟩
  · rw [hp] at hread hbehind
    rw [bind_some hread, bind_some hp]
    obtain ⟨m'', hread', hbehind', hactive', hmost'⟩ := hf a after m' (hr.of_suffix hbehind)
    have hfewer : openings after.coming ≤ openings r.coming := openings_suffix hbehind
    exact ⟨m'', hread', hbehind'.trans hbehind, hactive'.trans hactive, by omega⟩

theorem get {f : Reader Meter → ParseOf Meter β} {g : Reader → Parse β}
    (h : ∀ r m, Meters k (f (r.keeping m)) (g r)) : Meters k (Parse.get >>= f) (Parse.get >>= g) :=
  fun r m => h r m r m

theorem ite {c : Prop} [Decidable c] {q' : ParseOf Meter α} {p' : Parse α} (h : c → Meters k q p)
    (h' : ¬c → Meters k q' p') : Meters k (if c then q else q') (if c then p else p') := by
  split
  · exact h ‹_›
  · exact h' ‹_›

theorem counted (h : Meters k q p) : Meters (k + 1) (Parse.counted q) (Parse.counted p) := by
  intro r m hr
  obtain ⟨m', hread, hbehind, hactive, hmost⟩ := h r (Account.enter m) hr
  refine ⟨Account.leave m', counted_keeping hread, hbehind, ?_, ?_⟩
  · change m'.active - 1 = m.active
    change m'.active = m.active + 1 at hactive
    omega
  · change m'.most ≤ _
    change m'.most ≤ max (max m.most (m.active + 1)) (m.active + 1 + k + _) at hmost
    omega

/-- What counts no call may be done before. -/
theorem first (h : Uncounted q p) (hf : ∀ a, Meters k (f a) (g a)) :
    Meters k (q >>= f) (p >>= g) := (of_uncounted h).bind hf

/-- Behind an opening brace there is one brace less for what the block takes. -/
theorem opening {f : Unit → ParseOf Meter β} {g : Unit → Parse β}
    (h : Meters (k + 2) (f ()) (g ())) :
    Meters k (Parse.expect .leftBrace >>= f) (Parse.expect .leftBrace >>= g) := by
  intro r m hr
  obtain ⟨hread, hbehind⟩ := Uncounted.expect .leftBrace r m
  obtain ⟨-, -, htells⟩ := Candid.expect (n := r.room + 1) .leftBrace r hr (Nat.lt_succ_self _)
  rcases hp : Parse.expect .leftBrace r with ⟨_ | u, after⟩
  · rw [hp] at hread hbehind
    rw [bind_none hread, bind_none hp]
    exact ⟨m, rfl, hbehind, rfl, Nat.le_max_left _ _⟩
  · rw [hp] at hread hbehind
    rw [bind_some hread, bind_some hp]
    have hquiet : after.diagnostics.size ≤ r.diagnostics.size := by
      unfold Parse.expect at hp
      split at hp
      · obtain ⟨-, rfl⟩ := Prod.mk.inj hp
        exact Nat.le_of_eq (congrArg Array.size r.diagnostics_advance)
      · exact (Candid.unread hp).elim
    obtain ⟨hsign, hcoming⟩ := htells u after hp hquiet
    obtain ⟨m', hread', hbehind', hactive, hmost⟩ := h after m (hr.of_suffix hbehind)
    have hfewer : openings r.coming = openings after.coming + 1 := by
      rw [hcoming]
      exact List.countP_cons_of_pos (p := fun t : Token => t.isSign .leftBrace) hsign
    exact ⟨m', hread', hbehind'.trans hbehind, hactive, by omega⟩

/-- What is done behind a reading starts where that left off. -/
theorem attempt {bad : ParseOf Meter β} {good : Option α → ParseOf Meter β} {bad' : Parse β}
    {good' : Option α → Parse β} (h : Meters k q p) (hbad : Meters k bad bad')
    (hgood : ∀ found, Meters k (good found) (good' found)) :
    Meters k (Parse.attempt q bad good) (Parse.attempt p bad' good') := by
  intro r m hr
  obtain ⟨m', hread, hbehind, hactive, hmost⟩ := h r m hr
  have hfewer : openings (p r).2.coming ≤ openings r.coming := openings_suffix hbehind
  have hends := hr.of_suffix hbehind
  by_cases hsize : r.diagnostics.size < (p r).2.diagnostics.size
  · obtain ⟨m'', hread', hbehind', hactive', hmost'⟩ := hbad _ m' hends
    rw [attempt_bad bad good (by rw [hread]; exact hsize), attempt_bad bad' good' hsize, hread]
    exact ⟨m'', hread', hbehind'.trans hbehind, hactive'.trans hactive, by omega⟩
  · obtain ⟨m'', hread', hbehind', hactive', hmost'⟩ := hgood (p r).1 _ m' hends
    rw [attempt_good bad good (by rw [hread]; exact hsize), attempt_good bad' good' hsize, hread]
    exact ⟨m'', hread', hbehind'.trans hbehind, hactive'.trans hactive, by omega⟩

end Meters

namespace Parser

/-- Whether all metered readings with a number of calls read what the others do, with
as many calls active at once as the limit on nesting leaves, and two for each brace. -/
structure AllMetered (limit fuel : Nat) : Prop where
  expression : ∀ nesting precedence, Meters (limit - nesting + 1)
    (expression limit fuel nesting precedence) (expression limit fuel nesting precedence)
  operand : ∀ nesting, Meters (limit - nesting + 1) (operand limit fuel nesting)
    (operand limit fuel nesting)
  continued : ∀ nesting precedence left, Meters (limit - nesting + 1)
    (continued limit fuel nesting precedence left)
    (continued limit fuel nesting precedence left)
  extended : ∀ nesting left, Meters (limit - nesting + 1)
    (extended limit fuel nesting left) (extended limit fuel nesting left)
  expressions : ∀ nesting closing, Meters (limit - nesting + 1)
    (expressions limit fuel nesting closing) (expressions limit fuel nesting closing)
  moreExpressions : ∀ nesting closing done, Meters (limit - nesting + 1)
    (moreExpressions limit fuel nesting closing done)
    (moreExpressions limit fuel nesting closing done)
  block : ∀ nesting, Meters (limit - nesting + 3) (block limit fuel nesting)
    (block limit fuel nesting)
  blockStatements : ∀ nesting opened done, Meters (limit - nesting + 2)
    (blockStatements limit fuel nesting opened done)
    (blockStatements limit fuel nesting opened done)
  statement : ∀ nesting, Meters (limit - nesting + 2) (statement limit fuel nesting)
    (statement limit fuel nesting)
  expressionStatement : ∀ nesting, Meters (limit - nesting + 1)
    (expressionStatement limit fuel nesting) (expressionStatement limit fuel nesting)
  function : ∀ nesting, Meters (limit - nesting + 1) (function limit fuel nesting)
    (function limit fuel nesting)
  classStatement : ∀ nesting, Meters (limit - nesting + 1)
    (classStatement limit fuel nesting) (classStatement limit fuel nesting)
  classMethods : ∀ nesting opened done, Meters (limit - nesting + 1)
    (classMethods limit fuel nesting opened done)
    (classMethods limit fuel nesting opened done)
  choice : ∀ nesting start done, Meters (limit - nesting + 1)
    (choice limit fuel nesting start done) (choice limit fuel nesting start done)

variable {limit fuel : Nat}

theorem allMetered_zero (limit : Nat) : AllMetered limit 0 where
  expression _ _ := .of_uncounted .fail
  operand _ := .of_uncounted .fail
  continued _ _ _ := .of_uncounted .fail
  extended _ _ := .of_uncounted .fail
  expressions _ _ := .of_uncounted .fail
  moreExpressions _ _ _ := .of_uncounted .fail
  block _ := .of_uncounted .fail
  blockStatements _ _ _ := .of_uncounted .fail
  statement _ := .of_uncounted .fail
  expressionStatement _ := .of_uncounted .fail
  function _ := .of_uncounted .fail
  classStatement _ := .of_uncounted .fail
  classMethods _ _ _ := .of_uncounted .fail
  choice _ _ _ := .of_uncounted .fail

theorem meters_expression (h : AllMetered limit fuel) (nesting precedence : Nat) :
    Meters (limit - nesting + 1) (expression limit (fuel + 1) nesting precedence)
      (expression limit (fuel + 1) nesting precedence) := by
  rw [expression, expression]
  refine .counted (.ite (fun _ => .of_uncounted .refuseDeep) fun hdeep => ?_)
  exact ((h.operand _).mono (by omega)).bind fun left => (h.continued _ _ left).mono (by omega)

theorem meters_operand (h : AllMetered limit fuel) (nesting : Nat) :
    Meters (limit - nesting + 1) (operand limit (fuel + 1) nesting)
      (operand limit (fuel + 1) nesting) := by
  rw [operand, operand]
  refine Meters.first .current fun t => ?_
  have hunary : ∀ op : UnaryOp, Meters (limit - nesting + 1)
      (advance >>= fun _ => expression limit fuel nesting unaryPrecedence >>= fun e =>
        Pure.pure (Expr.unary t.position op e))
      (advance >>= fun _ => expression limit fuel nesting unaryPrecedence >>= fun e =>
        Pure.pure (Expr.unary t.position op e)) := fun op =>
    Meters.first .advance fun _ => (h.expression _ _).bind fun _ => .pure _
  cases t.kind with
  | name capital => exact .pure _
  | int value => exact .pure _
  | float value => exact .pure _
  | str => exact .pure _
  | illegal reason => exact .refuseToken t
  | eof => exact .refuseToken t
  | keyword k =>
      cases k with
      | trueWord => exact .pure _
      | falseWord => exact .pure _
      | nullWord => exact .pure _
      | fnWord =>
          refine Meters.first (.expect _) fun _ => Meters.first (.params _) fun ps => .opening ?_
          exact (h.block _).bind fun body => .pure _
      | _ => exact .refuseToken t
  | sign s =>
      cases s with
      | leftBracket => exact (h.expressions _ _).bind fun items => .pure _
      | leftParen =>
          refine Meters.first .advance fun _ => (h.expression _ _).bind fun inner => ?_
          exact Meters.first (.expect _) fun _ => .pure _
      | bang => exact hunary _
      | minus => exact hunary _
      | plus => exact hunary _
      | _ => exact .refuseToken t

theorem meters_continued (h : AllMetered limit fuel) (nesting precedence : Nat) (left : Expr) :
    Meters (limit - nesting + 1) (continued limit (fuel + 1) nesting precedence left)
      (continued limit (fuel + 1) nesting precedence left) := by
  rw [continued, continued]
  refine Meters.get fun r _ => .ite (fun _ => Meters.first .advance fun _ => ?_) fun _ => .pure left
  exact (h.extended _ _).bind fun longer => h.continued _ _ longer

theorem meters_extended (h : AllMetered limit fuel) (nesting : Nat) (left : Expr) :
    Meters (limit - nesting + 1) (extended limit (fuel + 1) nesting left)
      (extended limit (fuel + 1) nesting left) := by
  rw [extended, extended]
  refine Meters.first .current fun t => ?_
  have hbinary : ∀ op : BinaryOp, Meters (limit - nesting + 1)
      (advance >>= fun _ => expression limit fuel nesting op.precedence >>= fun right =>
        Pure.pure (Expr.binary t.position op left right))
      (advance >>= fun _ => expression limit fuel nesting op.precedence >>= fun right =>
        Pure.pure (Expr.binary t.position op left right)) := fun op =>
    Meters.first .advance fun _ => (h.expression _ _).bind fun right => .pure _
  cases t.kind with
  | sign s =>
      cases s with
      | leftParen => exact (h.expressions _ _).bind fun args => .pure _
      | leftBracket =>
          refine Meters.first .advance fun _ => (h.expression _ _).bind fun subscript => ?_
          exact Meters.first (.expect _) fun _ => .pure _
      | dot =>
          refine Meters.first .expectName fun field => Meters.get fun r _ => .ite (fun _ => ?_)
            fun _ => .pure _
          exact Meters.first .advance fun _ => (h.expressions _ _).bind fun args => .pure _
      | _ => first | exact hbinary _ | exact .refuseToken t
  | _ => exact .refuseToken t

theorem meters_expressions (h : AllMetered limit fuel) (nesting : Nat) (closing : Sign) :
    Meters (limit - nesting + 1) (expressions limit (fuel + 1) nesting closing)
      (expressions limit (fuel + 1) nesting closing) := by
  rw [expressions, expressions]
  refine Meters.get fun r _ => .ite (fun _ => Meters.first .advance fun _ => .pure _) fun _ =>
    Meters.first .advance fun _ => ?_
  exact (h.expression _ _).bind fun first => h.moreExpressions _ _ [first]

theorem meters_moreExpressions (h : AllMetered limit fuel) (nesting : Nat) (closing : Sign)
    (done : List Expr) :
    Meters (limit - nesting + 1) (moreExpressions limit (fuel + 1) nesting closing done)
      (moreExpressions limit (fuel + 1) nesting closing done) := by
  rw [moreExpressions, moreExpressions]
  refine Meters.get fun r _ => .ite (fun _ => Meters.first .advance fun _ => ?_)
    fun _ => Meters.first (.expect _) fun _ => .pure _
  refine Meters.get fun r _ => .ite (fun _ => Meters.first .advance fun _ => .pure _)
    fun _ => Meters.first .advance fun _ => ?_
  exact (h.expression _ _).bind fun item => h.moreExpressions _ _ (item :: done)

theorem meters_block (h : AllMetered limit fuel) (nesting : Nat) :
    Meters (limit - nesting + 3) (block limit (fuel + 1) nesting)
      (block limit (fuel + 1) nesting) := by
  rw [block, block]
  refine .counted (Meters.first .current fun opening => Meters.first .advance fun _ => ?_)
  exact (h.blockStatements _ opening.position []).bind fun statements => .pure _

theorem meters_blockStatements (h : AllMetered limit fuel) (nesting : Nat) (opened : Position)
    (done : List Stmt) :
    Meters (limit - nesting + 2) (blockStatements limit (fuel + 1) nesting opened done)
      (blockStatements limit (fuel + 1) nesting opened done) := by
  rw [blockStatements, blockStatements]
  refine Meters.get fun r _ => .ite (fun _ => .pure _) fun _ =>
    .ite (fun _ => .refuse _ _) fun _ => ?_
  refine (h.statement _).attempt ?_ fun found => ?_
  · refine Meters.first .recover fun _ => Meters.get fun r _ =>
      .ite (fun _ => .pure _) fun _ => ?_
    exact Meters.first .advance fun _ => h.blockStatements _ _ _
  · refine Meters.first .advance fun _ => ?_
    rcases found with _ | _ | s <;> exact h.blockStatements _ _ _

theorem meters_statement (h : AllMetered limit fuel) (nesting : Nat) :
    Meters (limit - nesting + 2) (statement limit (fuel + 1) nesting)
      (statement limit (fuel + 1) nesting) := by
  rw [statement, statement]
  refine .counted (Meters.first .current fun t => ?_)
  have hexpression : Meters (limit - nesting + 1)
      (expressionStatement limit fuel nesting >>= fun s => Pure.pure (some s))
      (expressionStatement limit fuel nesting >>= fun s => Pure.pure (some s)) :=
    (h.expressionStatement _).bind fun s => .pure _
  cases t.kind with
  | sign s =>
      cases s with
      | semicolon => exact .pure _
      | _ => exact hexpression
  | keyword k =>
      cases k with
      | fnWord =>
          refine Meters.get fun r _ => .ite (fun _ => ?_) fun _ => hexpression
          exact (h.function _).bind fun f => .pure _
      | classWord => exact (h.classStatement _).bind fun s => .pure _
      | ifWord => exact (h.choice _ _ _).bind fun s => .pure _
      | whileWord =>
          refine Meters.first .advance fun _ => (h.expression _ _).bind fun condition => .opening ?_
          exact (h.block _).bind fun body => .pure _
      | forWord =>
          refine Meters.first .expectName fun item => Meters.get fun r _ => .ite (fun _ => ?_)
            fun _ => .refuseAhead _
          refine Meters.first .advance fun _ => Meters.first .advance fun _ => ?_
          refine (h.expression _ _).bind fun source => .opening ?_
          exact (h.block _).bind fun body => .pure _
      | returnWord =>
          refine Meters.get fun r _ => .ite (fun _ => Meters.first .advance fun _ => .pure _)
            fun _ => .ite (fun _ => .pure _) fun _ => Meters.first .advance fun _ => ?_
          refine (h.expression _ _).bind fun value => ?_
          exact Meters.first .endStatement fun _ => .pure _
      | breakWord => exact Meters.first .endStatement fun _ => .pure _
      | continueWord => exact Meters.first .endStatement fun _ => .pure _
      | _ => exact hexpression
  | _ => exact hexpression

theorem meters_expressionStatement (h : AllMetered limit fuel) (nesting : Nat) :
    Meters (limit - nesting + 1) (expressionStatement limit (fuel + 1) nesting)
      (expressionStatement limit (fuel + 1) nesting) := by
  rw [expressionStatement, expressionStatement]
  refine Meters.first .current fun start => (h.expression _ _).bind fun found => ?_
  refine Meters.get fun r _ => .ite (fun _ => Meters.first .advance fun _ => ?_)
    fun _ => Meters.first .endStatement fun _ => .pure _
  refine Meters.first .current fun equals => .ite (fun _ => Meters.first .advance fun _ => ?_)
    fun _ => .refuse _ _
  refine (h.expression _ _).bind fun value => Meters.first .endStatement fun _ => ?_
  exact .of_uncounted (.assignTo _ _ _ _)

theorem meters_function (h : AllMetered limit fuel) (nesting : Nat) :
    Meters (limit - nesting + 1) (function limit (fuel + 1) nesting)
      (function limit (fuel + 1) nesting) := by
  rw [function, function]
  refine Meters.first .current fun keyword => Meters.first .expectName fun ident => ?_
  refine Meters.first (.expect _) fun _ => Meters.first (.params _) fun ps => ?_
  refine Meters.first .optionalHint fun hint => .opening ?_
  exact (h.block _).bind fun body => .pure _

theorem meters_classStatement (h : AllMetered limit fuel) (nesting : Nat) :
    Meters (limit - nesting + 1) (classStatement limit (fuel + 1) nesting)
      (classStatement limit (fuel + 1) nesting) := by
  rw [classStatement, classStatement]
  have hfields : Uncounted
      (get >>= fun r =>
        if r.ahead.isSign .leftParen then advance >>= fun _ => params fuel else Pure.pure [])
      (get >>= fun r =>
        if r.ahead.isSign .leftParen then advance >>= fun _ => params fuel else Pure.pure []) :=
    .get fun _ _ => .ite (Uncounted.advance.bind fun _ => .params fuel) (.pure _)
  refine Meters.first .current fun keyword => Meters.first .expectName fun ident => ?_
  refine .first hfields fun fields => Meters.get fun r _ => ?_
  refine .ite (fun _ => Meters.first .advance fun _ => Meters.first .current fun opening => ?_)
    fun _ => Meters.first .endStatement fun _ => .pure _
  refine Meters.first .advance fun _ => ?_
  exact (h.classMethods _ opening.position []).bind fun methods => .pure _

theorem meters_classMethods (h : AllMetered limit fuel) (nesting : Nat) (opened : Position)
    (done : List Func) :
    Meters (limit - nesting + 1) (classMethods limit (fuel + 1) nesting opened done)
      (classMethods limit (fuel + 1) nesting opened done) := by
  rw [classMethods, classMethods]
  refine Meters.first .current fun t => ?_
  cases t.kind with
  | sign s =>
      cases s with
      | rightBrace => exact .pure _
      | semicolon => exact Meters.first .advance fun _ => h.classMethods _ _ _
      | _ => exact .refuse _ _
  | keyword k =>
      cases k with
      | fnWord =>
          refine Meters.get fun r _ => .ite (fun _ => ?_) fun _ => .refuseAhead _
          refine (h.function _).bind fun f => Meters.first .advance fun _ => ?_
          exact h.classMethods _ _ _
      | _ => exact .refuse _ _
  | _ => exact .refuse _ _

theorem meters_choice (h : AllMetered limit fuel) (nesting : Nat) (start : Position)
    (done : List Branch) :
    Meters (limit - nesting + 1) (choice limit (fuel + 1) nesting start done)
      (choice limit (fuel + 1) nesting start done) := by
  rw [choice, choice]
  refine Meters.first .current fun keyword => Meters.first .advance fun _ => ?_
  refine (h.expression _ _).bind fun condition => .opening ?_
  refine (h.block _).bind fun body => Meters.get fun r _ => ?_
  refine .ite (fun _ => Meters.first .advance fun _ => (h.choice _ _ _).mono (by omega)) fun _ => ?_
  refine .ite (fun _ => Meters.first .advance fun _ => ?_) fun _ => .pure _
  exact Meters.mono (.opening ((h.block _).bind fun otherwise => .pure _)) (Nat.le_add_right _ 2)

theorem allMetered (limit : Nat) : ∀ fuel, AllMetered limit fuel
  | 0 => allMetered_zero limit
  | fuel + 1 =>
    have h := allMetered limit fuel
    { expression := meters_expression h
      operand := meters_operand h
      continued := meters_continued h
      extended := meters_extended h
      expressions := meters_expressions h
      moreExpressions := meters_moreExpressions h
      block := meters_block h
      blockStatements := meters_blockStatements h
      statement := meters_statement h
      expressionStatement := meters_expressionStatement h
      function := meters_function h
      classStatement := meters_classStatement h
      classMethods := meters_classMethods h
      choice := meters_choice h }

end Parser

end Scriptlet
