/-
Neighbouring words of a layout.  Two words with nothing between them are such
that neither the end of the first nor the beginning of the second is cut
elsewhere: a name or a number stands beside a sign, a dot before a name, and no
two signs form a third.  Every word is one that a tree can be written with.
-/
import Scriptlet.Proofs.View

namespace Scriptlet.Layout

/-- Whether an expression or a statement may begin with a word. -/
def Word.opens : Word → Bool
  | .sign .leftParen | .sign .leftBracket | .sign .minus | .sign .plus | .sign .bang => true
  | .sign _ => false
  | _ => true

/-- Whether an expression or a statement may end with a word. -/
def Word.closes : Word → Bool
  | .sign .rightParen | .sign .rightBracket | .sign .rightBrace | .sign .semicolon => true
  | .sign _ => false
  | _ => true

/-- Whether a sign may stand right behind another word: it begins with no
character that ends a longer sign. -/
def staysApart : Sign → Bool
  | .assign | .equal | .both | .either => false
  | _ => true

/-- Whether a word may stand right behind another. -/
def Word.touches : Word → Word → Bool
  | .sign .dot, .name _ => true
  | .sign .dot, _ => false
  | .sign .slash, _ => false
  | _, .sign t => staysApart t
  | .sign _, _ => true
  | _, _ => false

def Word.isDot : Word → Bool
  | .sign .dot => true
  | _ => false

/-- Whether a piece may stand behind a word.  A number with a dot behind it is
the reason why only a name may follow a dot. -/
def beside (w : Word) (q : Piece) : Bool :=
  match q.gap with
  | .nothing => w.touches q.word
  | _ => !w.isDot

/-- Whether a word is a name if it should be one, and a number if it should be
one. -/
def Word.Legible : Word → Prop
  | .name n => IsName n
  | .int value => 0 ≤ value
  | .float value => IsDecimal value
  | _ => True

/-- Legible pieces each of which may stand behind the one before: the first of
them, all of them, and the last word. -/
inductive Row : Piece → List Piece → Word → Prop where
  | one (p : Piece) : p.word.Legible → Row p [p] p.word
  | cons (p q : Piece) (ps : List Piece) (w : Word) :
      p.word.Legible → beside p.word q = true → Row q ps w → Row p (p :: ps) w

theorem Row.append {p q : Piece} {ps qs : List Piece} {w v : Word} (h : Row p ps w)
    (hnext : Row q qs v) (hbeside : beside w q = true) : Row p (ps ++ qs) v := by
  induction h with
  | one p hp => exact .cons p q qs v hp hbeside hnext
  | cons p r ps w hp hr _ ih => exact .cons p r _ v hp hr (ih hbeside)

/-- A piece that may stand behind whatever ends an expression. -/
def Piece.Trails (q : Piece) : Prop := ∀ w : Word, w.closes = true → beside w q = true

/-- The pieces of a whole expression or statement. -/
def Phrase (g : Gap) (ps : List Piece) : Prop :=
  ∃ w v : Word, w.opens = true ∧ v.closes = true ∧ Row ⟨g, w⟩ ps v

/-- Pieces, or none, that may stand behind a whole expression and end like
one. -/
def Trails (ps : List Piece) : Prop :=
  ps = [] ∨ ∃ q v, Row q ps v ∧ v.closes = true ∧ q.Trails

theorem Piece.trails_close {s : Sign} (h : staysApart s = true) : (close s).Trails := by
  intro w hw
  cases w with
  | sign t => cases t <;> simp_all [Word.closes, beside, close, Word.touches]
  | _ => exact h

theorem Piece.trails_of_gap {g : Gap} (hg : g ≠ .nothing) (w : Word) : Piece.Trails ⟨g, w⟩ := by
  intro v hv
  cases g with
  | nothing => exact absurd rfl hg
  | _ =>
      cases v with
      | sign t => cases t <;> simp_all [Word.closes, beside, Word.isDot]
      | _ => rfl

theorem Phrase.word (g : Gap) {w : Word} (hopens : w.opens = true) (hcloses : w.closes = true)
    (hw : w.Legible) : Phrase g [⟨g, w⟩] := ⟨w, w, hopens, hcloses, .one ⟨g, w⟩ hw⟩

theorem Phrase.keyword (g : Gap) (k : Keyword) : Phrase g [⟨g, .keyword k⟩] :=
  Phrase.word g rfl rfl trivial

theorem Phrase.name (g : Gap) {i : Ident} (h : i.Legible) : Phrase g [⟨g, .name i.name⟩] :=
  Phrase.word g rfl rfl h

theorem Phrase.append {g : Gap} {ps qs : List Piece} (h : Phrase g ps) (ht : Trails qs) :
    Phrase g (ps ++ qs) := by
  obtain ⟨w, v, hopens, hcloses, hrow⟩ := h
  rcases ht with rfl | ⟨q, u, hnext, hu, hq⟩
  · rw [List.append_nil]
    exact ⟨w, v, hopens, hcloses, hrow⟩
  · exact ⟨w, u, hopens, hu, hrow.append hnext (hq v hcloses)⟩

theorem Trails.append {ps qs : List Piece} (h : Trails ps) (ht : Trails qs) :
    Trails (ps ++ qs) := by
  rcases h with rfl | ⟨p, v, hrow, hv, hp⟩
  · exact ht
  · rcases ht with rfl | ⟨q, u, hnext, hu, hq⟩
    · rw [List.append_nil]
      exact Or.inr ⟨p, v, hrow, hv, hp⟩
    · exact Or.inr ⟨p, u, hrow.append hnext (hq v hv), hu, hp⟩

theorem Phrase.trails {g : Gap} {ps : List Piece} (h : Phrase g ps) (hg : g ≠ .nothing) :
    Trails ps := by
  obtain ⟨w, v, _, hcloses, hrow⟩ := h
  exact Or.inr ⟨⟨g, w⟩, v, hrow, hcloses, Piece.trails_of_gap hg w⟩

/-- A sign that an expression may stand right behind. -/
def leads (s : Sign) : Bool := s != .dot && s != .slash

theorem staysApart_of_opens {t : Sign} (h : (Word.sign t).opens = true) : staysApart t = true := by
  cases t <;> simp_all [Word.opens, staysApart]

theorem beside_of_leads {s : Sign} (hs : leads s = true) (g : Gap) {w : Word}
    (hw : w.opens = true) : beside (.sign s) ⟨g, w⟩ = true := by
  cases g with
  | nothing =>
      cases w with
      | sign t =>
          have ht := staysApart_of_opens hw
          cases s <;> simp_all [leads, beside, Word.touches]
      | _ => cases s <;> simp_all [leads, beside, Word.touches]
  | _ => cases s <;> simp_all [leads, beside, Word.isDot]

theorem Row.lead {g : Gap} {ps : List Piece} {v : Word} {s : Sign} (hs : leads s = true)
    {w : Word} (hw : w.opens = true) (h : Row ⟨g, w⟩ ps v) (g' : Gap) :
    Row ⟨g', .sign s⟩ (⟨g', .sign s⟩ :: ps) v :=
  .cons _ ⟨g, w⟩ ps v trivial (beside_of_leads hs g hw) h

/-- Pieces between brackets. -/
theorem Row.enclosed (g : Gap) {o c : Sign} (ho : leads o = true) (hc : staysApart c = true)
    {ps : List Piece} (h : ps = [] ∨ Phrase .nothing ps) :
    Row ⟨g, .sign o⟩ (⟨g, .sign o⟩ :: ps ++ [Piece.close c]) (.sign c) := by
  rcases h with rfl | ⟨w, v, hopens, hcloses, hrow⟩
  · refine .cons _ (.close c) _ _ trivial ?_ (.one _ trivial)
    cases o <;> simp_all [leads, beside, Word.touches, Piece.close]
  · exact (Row.lead ho hopens hrow g).append (.one (.close c) trivial)
      (Piece.trails_close hc v hcloses)

theorem trails_parens {ps : List Piece} (h : ps = [] ∨ Phrase .nothing ps) :
    Trails (.close .leftParen :: ps ++ [Piece.close .rightParen]) :=
  Or.inr ⟨_, _, Row.enclosed .nothing rfl rfl h, rfl, Piece.trails_close rfl⟩

theorem trails_brackets {ps : List Piece} (h : Phrase .nothing ps) :
    Trails (.close .leftBracket :: ps ++ [Piece.close .rightBracket]) :=
  Or.inr ⟨_, _, Row.enclosed .nothing rfl rfl (Or.inr h), rfl, Piece.trails_close rfl⟩

theorem phrase_wrapPieces (needed : Bool) (g : Gap) {inner : Gap → List Piece}
    (h : ∀ g, Phrase g (inner g)) : Phrase g (wrapPieces needed g inner) := by
  cases needed with
  | false => exact h g
  | true => exact ⟨_, _, rfl, rfl, Row.enclosed g rfl rfl (Or.inr (h .nothing))⟩

theorem trails_hintPieces {hint : Option Ident} (hlegible : HintLegible hint) :
    Trails (hintPieces hint) := by
  cases hint with
  | none => exact Or.inl rfl
  | some h =>
      have hrow : Row (.close .colon) (hintPieces (some h)) (.name h.name) :=
        .cons _ _ _ _ trivial rfl (.one ⟨.blank, .name h.name⟩ (hlegible h rfl))
      exact Or.inr ⟨_, _, hrow, rfl, Piece.trails_close rfl⟩

theorem phrase_paramPieces (g : Gap) {p : Param} (h : p.Legible) : Phrase g (paramPieces g p) :=
  (Phrase.name g h.1).append (trails_hintPieces h.2)

theorem trails_moreParamPieces {ps : List Param} (h : ∀ p ∈ ps, p.Legible) :
    Trails (moreParamPieces ps) := by
  induction ps with
  | nil => exact Or.inl rfl
  | cons p ps ih =>
      obtain ⟨w, v, hopens, hcloses, hrow⟩ :=
        phrase_paramPieces .blank (h p List.mem_cons_self)
      have hfirst : Trails (.close .comma :: paramPieces .blank p) :=
        Or.inr ⟨_, _, Row.lead rfl hopens hrow .nothing, hcloses, Piece.trails_close rfl⟩
      exact hfirst.append (ih (fun q hq => h q (List.mem_cons_of_mem p hq)))

theorem trails_paramsPieces {ps : List Param} (h : ParamsLegible ps) :
    Trails (paramsPieces ps) := by
  cases ps with
  | nil => exact trails_parens (Or.inl rfl)
  | cons p ps =>
      have hps : ∀ q ∈ ps, q.Legible := fun q hq => h.1 q (List.mem_cons_of_mem p hq)
      have hinner := (phrase_paramPieces .nothing (h.1 p List.mem_cons_self)).append
        (trails_moreParamPieces hps)
      simpa [paramsPieces] using trails_parens (Or.inr hinner)

theorem trails_field {field : Ident} (h : field.Legible) :
    Trails [.close .dot, ⟨.nothing, .name field.name⟩] := by
  have hrow : Row (.close .dot) [.close .dot, ⟨.nothing, .name field.name⟩] (.name field.name) :=
    .cons _ _ _ _ trivial rfl (.one _ h)
  exact Or.inr ⟨_, _, hrow, rfl, Piece.trails_close rfl⟩

/-- Lines between braces. -/
theorem trails_braces {d inner : Nat} {ps : List Piece} (h : Phrase (.line inner) ps) :
    Trails (.apart .leftBrace :: ps ++ [Piece.mk (.line d) (.sign .rightBrace)]) := by
  obtain ⟨w, v, hopens, hcloses, hrow⟩ := h
  have hclosed := hrow.append (.one ⟨.line d, .sign .rightBrace⟩ trivial)
    (Piece.trails_of_gap Gap.noConfusion _ v hcloses)
  exact Or.inr ⟨_, _, Row.lead rfl hopens hclosed .blank, rfl,
    Piece.trails_of_gap Gap.noConfusion _⟩

theorem trails_assign {ps : List Piece} (h : Phrase .blank ps) :
    Trails (.apart .assign :: ps) := by
  obtain ⟨w, v, hopens, hcloses, hrow⟩ := h
  exact Or.inr ⟨_, v, Row.lead rfl hopens hrow .blank, hcloses,
    Piece.trails_of_gap Gap.noConfusion _⟩

mutual

/-- The words of an expression stand apart, wherever it begins. -/
theorem phrase_exprPieces (g : Gap) (depth : Nat) : (e : Expr) → e.Legible →
    Phrase g (exprPieces g depth e)
  | .name _, h => Phrase.name g h
  | .int _ _ _, h => Phrase.word g rfl rfl h
  | .float _ _ _, h => Phrase.word g rfl rfl h
  | .str _ _, _ => Phrase.word g rfl rfl trivial
  | .bool _ _, _ => Phrase.keyword g _
  | .null _, _ => Phrase.keyword g .nullWord
  | .list _ items, h => by
    rw [exprPieces]
    exact ⟨_, _, rfl, rfl, Row.enclosed g rfl rfl (phrase_itemsPieces depth items h)⟩
  | .unary _ op operand, h => by
    obtain ⟨w, v, hopens, hcloses, hrow⟩ := phrase_wrapPieces (needsSide 100 false operand)
      .nothing (fun g => phrase_exprPieces g depth operand h)
    have hsign : leads op.sign = true := by cases op <;> rfl
    have hstart : (Word.sign op.sign).opens = true := by cases op <;> rfl
    rw [exprPieces]
    exact ⟨_, v, hstart, hcloses, Row.lead hsign hopens hrow g⟩
  | .binary _ op left right, h => by
    have hleft := phrase_wrapPieces (needsSide op.precedence false left) g
      (fun g => phrase_exprPieces g depth left h.1)
    obtain ⟨w, v, hopens, hcloses, hrow⟩ := phrase_wrapPieces
      (needsSide op.precedence true right) .blank (fun g => phrase_exprPieces g depth right h.2)
    have hop : beside (.sign op.sign) ⟨.blank, w⟩ = true := by cases op <;> rfl
    have hright : Row (.apart op.sign) (.apart op.sign :: _) v := .cons _ _ _ v trivial hop hrow
    rw [exprPieces]
    exact hleft.append
      (Or.inr ⟨_, v, hright, hcloses, Piece.trails_of_gap Gap.noConfusion (.sign op.sign)⟩)
  | .call _ callee args, h => by
    have hcallee := phrase_wrapPieces (needsWrap callee) g
      (fun g => phrase_exprPieces g depth callee h.1)
    rw [exprPieces]
    simpa using hcallee.append (trails_parens (phrase_itemsPieces depth args h.2))
  | .member _ object field, h => by
    have hobject := phrase_wrapPieces (needsWrap object) g
      (fun g => phrase_exprPieces g depth object h.1)
    rw [exprPieces]
    exact hobject.append (trails_field h.2)
  | .method _ object field args, h => by
    have hobject := phrase_wrapPieces (needsWrap object) g
      (fun g => phrase_exprPieces g depth object h.1)
    have hargs := trails_parens (phrase_itemsPieces depth args h.2.2)
    rw [exprPieces]
    simpa using hobject.append ((trails_field h.2.1).append hargs)
  | .index _ object subscript, h => by
    have hobject := phrase_wrapPieces (needsWrap object) g
      (fun g => phrase_exprPieces g depth object h.1)
    have hsubscript := trails_brackets (phrase_exprPieces .nothing depth subscript h.2)
    rw [exprPieces]
    simpa using hobject.append hsubscript
  | .lambda _ params body, h => by
    have hbody := trails_blockPieces depth body h.2
    have hkeyword := Phrase.keyword g .fnWord
    rw [exprPieces]
    exact hkeyword.append ((trails_paramsPieces h.1).append hbody)

theorem phrase_itemsPieces (depth : Nat) : (items : List Expr) → ExprsLegible items →
    itemsPieces depth items = [] ∨ Phrase .nothing (itemsPieces depth items)
  | [], _ => Or.inl rfl
  | e :: es, h => by
    have he := phrase_exprPieces .nothing depth e h.1
    have hes := trails_moreItemsPieces depth es h.2
    exact Or.inr (he.append hes)

theorem trails_moreItemsPieces (depth : Nat) : (items : List Expr) → ExprsLegible items →
    Trails (moreItemsPieces depth items)
  | [], _ => Or.inl rfl
  | e :: es, h => by
    obtain ⟨w, v, hopens, hcloses, hrow⟩ := phrase_exprPieces .blank depth e h.1
    have hfirst : Trails (.close .comma :: exprPieces .blank depth e) :=
      Or.inr ⟨_, _, Row.lead rfl hopens hrow .nothing, hcloses, Piece.trails_close rfl⟩
    exact hfirst.append (trails_moreItemsPieces depth es h.2)

theorem trails_blockPieces (depth : Nat) : (b : Block) → b.Legible →
    Trails (blockPieces depth b)
  | .mk _ [], _ => by
    have hrow : Row (.apart .leftBrace) [.apart .leftBrace, .close .rightBrace]
        (.sign .rightBrace) := .cons _ _ _ _ trivial rfl (.one (.close .rightBrace) trivial)
    exact Or.inr ⟨_, _, hrow, rfl, Piece.trails_of_gap Gap.noConfusion _⟩
  | .mk _ (s :: ss), h => by
    have hlines := (phrase_stmtPieces (.line (depth + 1)) (depth + 1) s h.1).append
      (trails_linesPieces (depth + 1) ss h.2)
    rw [blockPieces]
    exact trails_braces hlines

theorem trails_linesPieces (depth : Nat) : (ss : List Stmt) → StmtsLegible ss →
    Trails (linesPieces depth ss)
  | [], _ => Or.inl rfl
  | s :: ss, h => by
    have hs := (phrase_stmtPieces (.line depth) depth s h.1).trails Gap.noConfusion
    exact hs.append (trails_linesPieces depth ss h.2)

theorem trails_branchesPieces (depth : Nat) : (bs : List Branch) → BranchesLegible bs →
    Trails (branchesPieces .blank depth .elifWord bs)
  | [], _ => Or.inl rfl
  | .mk _ condition body :: bs, h => by
    have hkeyword := Phrase.keyword .blank .elifWord
    have hcondition := (phrase_exprPieces .blank depth condition h.1).trails Gap.noConfusion
    have hbody := trails_blockPieces depth body h.2.1
    have hbs := trails_branchesPieces depth bs h.2.2
    have hfirst := (hkeyword.trails Gap.noConfusion).append (hcondition.append hbody)
    simpa [branchesPieces] using hfirst.append hbs

theorem phrase_funcPieces (g : Gap) (depth : Nat) : (f : Func) → f.Legible →
    Phrase g (funcPieces g depth f)
  | .mk _ ident params hint body, h => by
    have hkeyword := Phrase.keyword g .fnWord
    have hname := Phrase.name .blank h.1
    have hbody := trails_blockPieces depth body h.2.2.2
    have hrest := (trails_paramsPieces h.2.1).append ((trails_hintPieces h.2.2.1).append hbody)
    simpa [funcPieces] using
      hkeyword.append ((hname.trails Gap.noConfusion).append hrest)

theorem trails_methodsPieces (depth : Nat) : (fs : List Func) → FuncsLegible fs →
    Trails (methodsPieces depth fs)
  | [], _ => Or.inl rfl
  | f :: fs, h => by
    have hf := (phrase_funcPieces (.line depth) depth f h.1).trails Gap.noConfusion
    exact hf.append (trails_methodsPieces depth fs h.2)

/-- The words of a statement stand apart, wherever it begins. -/
theorem phrase_stmtPieces (g : Gap) (depth : Nat) : (s : Stmt) → s.Legible →
    Phrase g (stmtPieces g depth s)
  | .expr _ _ value, h => phrase_exprPieces g depth value h
  | .assign _ target value, h => by
    have htarget := Phrase.name g h.1
    rw [stmtPieces]
    exact htarget.append (trails_assign (phrase_exprPieces .blank depth value h.2))
  | .store _ _ object subscript value, h => by
    have hobject := phrase_wrapPieces (needsWrap object) g
      (fun g => phrase_exprPieces g depth object h.1)
    have hsubscript := trails_brackets (phrase_exprPieces .nothing depth subscript h.2.1)
    have hvalue := trails_assign (phrase_exprPieces .blank depth value h.2.2)
    rw [stmtPieces]
    simpa using hobject.append (hsubscript.append hvalue)
  | .choose _ [] none, h => absurd rfl h.1
  | .choose _ [] (some _), h => absurd rfl h.1
  | .choose _ (.mk _ condition body :: bs) none, h => by
    have hkeyword := Phrase.keyword g .ifWord
    have hcondition := (phrase_exprPieces .blank depth condition h.2.1.1).trails Gap.noConfusion
    have hbody := trails_blockPieces depth body h.2.1.2.1
    have hbs := trails_branchesPieces depth bs h.2.1.2.2
    simpa [stmtPieces, branchesPieces] using
      hkeyword.append (hcondition.append (hbody.append hbs))
  | .choose _ (.mk _ condition body :: bs) (some b), h => by
    have hkeyword := Phrase.keyword g .ifWord
    have hcondition := (phrase_exprPieces .blank depth condition h.2.1.1).trails Gap.noConfusion
    have hbody := trails_blockPieces depth body h.2.1.2.1
    have hbs := trails_branchesPieces depth bs h.2.1.2.2
    have helse := Phrase.keyword .blank .elseWord
    have hb := (helse.trails Gap.noConfusion).append (trails_blockPieces depth b h.2.2)
    simpa [stmtPieces, branchesPieces] using
      hkeyword.append (hcondition.append (hbody.append (hbs.append hb)))
  | .repeatWhile _ condition body, h => by
    have hkeyword := Phrase.keyword g .whileWord
    have hcondition := (phrase_exprPieces .blank depth condition h.1).trails Gap.noConfusion
    have hbody := trails_blockPieces depth body h.2
    simpa [stmtPieces] using hkeyword.append (hcondition.append hbody)
  | .forEach _ item source body, h => by
    have hkeyword := Phrase.keyword g .forWord
    have hitem := Phrase.name .blank h.1
    have hin := Phrase.keyword .blank .inWord
    have hsource := (phrase_exprPieces .blank depth source h.2.1).trails Gap.noConfusion
    have hbody := trails_blockPieces depth body h.2.2
    have hhead := (hitem.trails Gap.noConfusion).append (hin.trails Gap.noConfusion)
    simpa [stmtPieces] using hkeyword.append (hhead.append (hsource.append hbody))
  | .declare f, h => phrase_funcPieces g depth f h
  | .classDef _ ident fields [], h => by
    have hkeyword := Phrase.keyword g .classWord
    have hname := Phrase.name .blank h.1
    have hend : Trails [.close .semicolon] :=
      Or.inr ⟨_, _, .one (.close .semicolon) trivial, rfl, Piece.trails_close rfl⟩
    have hrest := (trails_paramsPieces h.2.1).append hend
    simpa [stmtPieces] using hkeyword.append ((hname.trails Gap.noConfusion).append hrest)
  | .classDef _ ident fields (m :: ms), h => by
    have hkeyword := Phrase.keyword g .classWord
    have hname := Phrase.name .blank h.1
    have hmethods := (phrase_funcPieces (.line (depth + 1)) (depth + 1) m h.2.2.1).append
      (trails_methodsPieces (depth + 1) ms h.2.2.2)
    have hrest := (trails_paramsPieces h.2.1).append (trails_braces (d := depth) hmethods)
    simpa [stmtPieces, methodsPieces] using
      hkeyword.append ((hname.trails Gap.noConfusion).append hrest)
  | .giveBack _ none, _ => Phrase.keyword g .returnWord
  | .giveBack _ (some e), h => by
    have hkeyword := Phrase.keyword g .returnWord
    exact hkeyword.append ((phrase_exprPieces .blank depth e h).trails Gap.noConfusion)
  | .leave _, _ => Phrase.keyword g .breakWord
  | .skip _, _ => Phrase.keyword g .continueWord

end

/-- The words of a program stand apart. -/
theorem phrase_programPieces (s : Stmt) (ss : List Stmt) (h : StmtsLegible (s :: ss)) :
    Phrase .nothing (programPieces (s :: ss)) :=
  (phrase_stmtPieces .nothing 0 s h.1).append (trails_linesPieces 0 ss h.2)

end Scriptlet.Layout
