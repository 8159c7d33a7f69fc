/-
The layout of a program as a list of words, each with the gap before it.  The
layout's text is the text of these words, and so what is said of neighbouring
words is said of the text.
-/
import Scriptlet.Syntax.Layout
import Scriptlet.Proofs.Legible

namespace Scriptlet

def UnaryOp.sign : UnaryOp → Sign
  | .negate => .minus
  | .posit => .plus
  | .invert => .bang

theorem UnaryOp.text_sign (op : UnaryOp) : op.sign.text = op.text := by
  cases op <;> rfl

namespace Layout

/-- What stands between a word and the one before. -/
inductive Gap where
  | nothing
  | blank
  | line (depth : Nat)
deriving DecidableEq

namespace Gap

/-- The characters of a gap. -/
def chars : Gap → List Char
  | .nothing => []
  | .blank => [' ']
  | .line depth => '\n' :: List.replicate (4 * depth) ' '

end Gap

/-- What a layout writes as one token. -/
inductive Word where
  | sign (s : Sign)
  | keyword (k : Keyword)
  | name (n : String)
  | int (value : Int64)
  | float (value : Float)
  | str (value : String)

/-- How a word is written. -/
def Word.text : Word → String
  | .sign s => s.text
  | .keyword k => k.text
  | .name n => n
  | .int value => toString value.toInt
  | .float value => floatText value
  | .str value => Text.quoteString value

/-- A word and the gap before it. -/
structure Piece where
  gap : Gap
  word : Word

namespace Piece

/-- The characters of a gap and its word. -/
def chars (p : Piece) : List Char := p.gap.chars ++ p.word.text.toList

/-- A sign right behind the word before. -/
def close (s : Sign) : Piece := ⟨.nothing, .sign s⟩

/-- A sign behind a blank. -/
def apart (s : Sign) : Piece := ⟨.blank, .sign s⟩

@[simp] theorem chars_mk (g : Gap) (w : Word) :
    (Piece.mk g w).chars = g.chars ++ w.text.toList := rfl

@[simp] theorem chars_close (s : Sign) : (close s).chars = s.text.toList := rfl

@[simp] theorem chars_apart (s : Sign) : (apart s).chars = ' ' :: s.text.toList := rfl

end Piece

def charsOf (ps : List Piece) : List Char := ps.flatMap Piece.chars

@[simp] theorem charsOf_nil : charsOf [] = [] := rfl

@[simp] theorem charsOf_cons (p : Piece) (ps : List Piece) :
    charsOf (p :: ps) = p.chars ++ charsOf ps := rfl

@[simp] theorem charsOf_append (ps qs : List Piece) :
    charsOf (ps ++ qs) = charsOf ps ++ charsOf qs := List.flatMap_append

/-- Pieces between parentheses where they are needed; `inner` takes the gap
before them. -/
def wrapPieces (needed : Bool) (g : Gap) (inner : Gap → List Piece) : List Piece :=
  if needed then ⟨g, .sign .leftParen⟩ :: inner .nothing ++ [.close .rightParen] else inner g

/-- Whether an expression needs parentheses beside an operator of precedence
`outer`, to its right if `onRight`. -/
def needsSide (outer : Nat) (onRight : Bool) : Expr → Bool
  | .binary _ op _ _ => op.precedence < outer || (op.precedence == outer && onRight)
  | _ => false

def hintPieces : Option Ident → List Piece
  | some h => [.close .colon, ⟨.blank, .name h.name⟩]
  | none => []

def paramPieces (g : Gap) (p : Param) : List Piece :=
  ⟨g, .name p.name.name⟩ :: hintPieces p.hint

/-- The words of further parameters. -/
def moreParamPieces (ps : List Param) : List Piece :=
  ps.flatMap fun p => .close .comma :: paramPieces .blank p

def paramsPieces : List Param → List Piece
  | [] => [.close .leftParen, .close .rightParen]
  | p :: ps =>
    .close .leftParen :: paramPieces .nothing p ++ moreParamPieces ps ++ [.close .rightParen]

def boolWord (b : Bool) : Word := .keyword (if b then .trueWord else .falseWord)

mutual

/-- The words of an expression without parentheses around it. -/
def exprPieces (g : Gap) (depth : Nat) : Expr → List Piece
  | .name i => [⟨g, .name i.name⟩]
  | .int _ _ value => [⟨g, .int value⟩]
  | .float _ _ value => [⟨g, .float value⟩]
  | .str _ value => [⟨g, .str value⟩]
  | .bool _ value => [⟨g, boolWord value⟩]
  | .null _ => [⟨g, .keyword .nullWord⟩]
  | .list _ items =>
    ⟨g, .sign .leftBracket⟩ :: itemsPieces depth items ++ [.close .rightBracket]
  | .unary _ op operand =>
    ⟨g, .sign op.sign⟩ ::
      wrapPieces (needsSide 100 false operand) .nothing (fun g => exprPieces g depth operand)
  | .binary _ op left right =>
    wrapPieces (needsSide op.precedence false left) g (fun g => exprPieces g depth left) ++
      .apart op.sign ::
        wrapPieces (needsSide op.precedence true right) .blank
          (fun g => exprPieces g depth right)
  | .call _ callee args =>
    wrapPieces (needsWrap callee) g (fun g => exprPieces g depth callee) ++
      .close .leftParen :: itemsPieces depth args ++ [.close .rightParen]
  | .member _ object field =>
    wrapPieces (needsWrap object) g (fun g => exprPieces g depth object) ++
      [.close .dot, ⟨.nothing, .name field.name⟩]
  | .method _ object field args =>
    wrapPieces (needsWrap object) g (fun g => exprPieces g depth object) ++
      .close .dot :: ⟨.nothing, .name field.name⟩ :: .close .leftParen ::
        itemsPieces depth args ++ [.close .rightParen]
  | .index _ object subscript =>
    wrapPieces (needsWrap object) g (fun g => exprPieces g depth object) ++
      .close .leftBracket :: exprPieces .nothing depth subscript ++ [.close .rightBracket]
  | .lambda _ params body =>
    ⟨g, .keyword .fnWord⟩ :: paramsPieces params ++ blockPieces depth body

/-- The words of expressions separated by commas. -/
def itemsPieces (depth : Nat) : List Expr → List Piece
  | [] => []
  | e :: es => exprPieces .nothing depth e ++ moreItemsPieces depth es

/-- The words of further expressions. -/
def moreItemsPieces (depth : Nat) : List Expr → List Piece
  | [] => []
  | e :: es => .close .comma :: exprPieces .blank depth e ++ moreItemsPieces depth es

def blockPieces (depth : Nat) : Block → List Piece
  | .mk _ [] => [.apart .leftBrace, .close .rightBrace]
  | .mk _ (s :: ss) =>
    .apart .leftBrace :: linesPieces (depth + 1) (s :: ss) ++
      [⟨.line depth, .sign .rightBrace⟩]

def linesPieces (depth : Nat) : List Stmt → List Piece
  | [] => []
  | s :: ss => stmtPieces (.line depth) depth s ++ linesPieces depth ss

/-- The words of branches of a choice, the first introduced by `word`. -/
def branchesPieces (g : Gap) (depth : Nat) (word : Keyword) : List Branch → List Piece
  | [] => []
  | .mk _ condition body :: bs =>
    ⟨g, .keyword word⟩ :: exprPieces .blank depth condition ++ blockPieces depth body ++
      branchesPieces .blank depth .elifWord bs

def funcPieces (g : Gap) (depth : Nat) : Func → List Piece
  | .mk _ ident params hint body =>
    ⟨g, .keyword .fnWord⟩ :: ⟨.blank, .name ident.name⟩ :: paramsPieces params ++
      hintPieces hint ++ blockPieces depth body

def methodsPieces (depth : Nat) : List Func → List Piece
  | [] => []
  | f :: fs => funcPieces (.line depth) depth f ++ methodsPieces depth fs

/-- The words of a statement. -/
def stmtPieces (g : Gap) (depth : Nat) : Stmt → List Piece
  | .expr _ _ value => exprPieces g depth value
  | .assign _ target value =>
    ⟨g, .name target.name⟩ :: .apart .assign :: exprPieces .blank depth value
  | .store _ _ object subscript value =>
    wrapPieces (needsWrap object) g (fun g => exprPieces g depth object) ++
      .close .leftBracket :: exprPieces .nothing depth subscript ++
        .close .rightBracket :: .apart .assign :: exprPieces .blank depth value
  | .choose _ branches otherwise =>
    branchesPieces g depth .ifWord branches ++
      (match otherwise with
        | some b => ⟨.blank, .keyword .elseWord⟩ :: blockPieces depth b
        | none => [])
  | .repeatWhile _ condition body =>
    ⟨g, .keyword .whileWord⟩ :: exprPieces .blank depth condition ++ blockPieces depth body
  | .forEach _ item source body =>
    ⟨g, .keyword .forWord⟩ :: ⟨.blank, .name item.name⟩ :: ⟨.blank, .keyword .inWord⟩ ::
      exprPieces .blank depth source ++ blockPieces depth body
  | .declare f => funcPieces g depth f
  | .classDef _ ident fields [] =>
    ⟨g, .keyword .classWord⟩ :: ⟨.blank, .name ident.name⟩ :: paramsPieces fields ++
      [.close .semicolon]
  | .classDef _ ident fields (m :: ms) =>
    ⟨g, .keyword .classWord⟩ :: ⟨.blank, .name ident.name⟩ :: paramsPieces fields ++
      .apart .leftBrace :: methodsPieces (depth + 1) (m :: ms) ++
        [⟨.line depth, .sign .rightBrace⟩]
  | .giveBack _ value =>
    ⟨g, .keyword .returnWord⟩ ::
      (match value with
        | some e => exprPieces .blank depth e
        | none => [])
  | .leave _ => [⟨g, .keyword .breakWord⟩]
  | .skip _ => [⟨g, .keyword .continueWord⟩]

end

def programPieces : List Stmt → List Piece
  | [] => []
  | s :: ss => stmtPieces .nothing 0 s ++ linesPieces 0 ss

/-- Beside an operator an expression stands as it does alone, in parentheses
where it needs them. -/
theorem exprText_beside (depth outer : Nat) (onRight : Bool) (e : Expr) :
    exprText depth outer onRight e =
      wrapIf (needsSide outer onRight e) (exprText depth 0 false e) := by
  cases e <;> simp [exprText, needsSide, wrapIf]

theorem charsOf_wrapPieces (needed : Bool) (g : Gap) (inner : Gap → List Piece) (text : String)
    (h : ∀ g, charsOf (inner g) = g.chars ++ text.toList) :
    charsOf (wrapPieces needed g inner) = g.chars ++ (wrapIf needed text).toList := by
  cases needed
  · exact h g
  · simp [wrapPieces, wrapIf, h, Word.text, Gap.chars, Sign.text]

theorem charsOf_hintPieces (h : Option Ident) :
    charsOf (hintPieces h) =
      (match h with
        | some h => ": " ++ h.name
        | none => "").toList := by
  cases h <;> simp [hintPieces, Gap.chars, Word.text, Sign.text]

theorem charsOf_paramPieces (g : Gap) (p : Param) :
    charsOf (paramPieces g p) = g.chars ++ (paramText p).toList := by
  obtain ⟨name, hint⟩ := p
  cases hint <;> simp [paramPieces, charsOf_hintPieces, paramText, Word.text]

theorem charsOf_moreParamPieces (p : Param) (ps : List Param) :
    (paramText p).toList ++ charsOf (moreParamPieces ps) =
      (", ".intercalate ((p :: ps).map paramText)).toList := by
  induction ps generalizing p with
  | nil => simp [moreParamPieces]
  | cons q qs ih =>
      have hrest := ih q
      simp only [moreParamPieces, List.flatMap_cons, List.map_cons, charsOf_append, charsOf_cons,
        Piece.chars_close, charsOf_paramPieces, String.intercalate_cons_cons,
        String.toList_append] at hrest ⊢
      rw [← hrest]
      simp [Sign.text, Gap.chars]

theorem charsOf_paramsPieces (ps : List Param) :
    charsOf (paramsPieces ps) = (paramsText ps).toList := by
  cases ps with
  | nil => rfl
  | cons p ps =>
      have hmore := charsOf_moreParamPieces p ps
      simp only [paramsPieces, paramsText, charsOf_append, charsOf_cons, charsOf_paramPieces,
        Piece.chars_close, String.toList_append, ← hmore]
      simp [Sign.text, Gap.chars]

theorem chars_blank : Gap.chars .blank = [' '] := rfl

theorem chars_line (depth : Nat) : Gap.chars (.line depth) = '\n' :: (margin depth).toList := by
  simp [Gap.chars, margin]

theorem append_line_end {cs ds : List Char} (h : cs ++ ['\n'] = '\n' :: ds) (rest : List Char) :
    cs ++ '\n' :: rest = '\n' :: (ds ++ rest) := by
  have hrest := congrArg (· ++ rest) h
  simpa using hrest

mutual

theorem charsOf_exprPieces (g : Gap) (depth : Nat) : (e : Expr) → e.Legible →
    charsOf (exprPieces g depth e) = g.chars ++ (exprText depth 0 false e).toList
  | .name i, _ => by simp [exprPieces, exprText, Word.text]
  | .int _ _ value, _ => by simp [exprPieces, exprText, Word.text]
  | .float _ _ value, _ => by simp [exprPieces, exprText, Word.text]
  | .str _ value, _ => by simp [exprPieces, exprText, Word.text]
  | .bool _ value, _ => by
    cases value <;> simp [exprPieces, exprText, Word.text, boolWord, Keyword.text]
  | .null _, _ => by simp [exprPieces, exprText, Word.text, Keyword.text]
  | .list _ items, h => by
    have hitems := charsOf_itemsPieces depth items h
    simp [exprPieces, exprText, Word.text, Sign.text, hitems]
  | .unary _ op operand, h => by
    have hoperand := charsOf_wrapPieces (needsSide 100 false operand) .nothing _ _
      (fun g => charsOf_exprPieces g depth operand h)
    rw [← exprText_beside] at hoperand
    simp [exprPieces, exprText, Word.text, UnaryOp.text_sign, hoperand, Gap.chars]
  | .binary _ op left right, h => by
    have hleft := charsOf_wrapPieces (needsSide op.precedence false left) g _ _
      (fun g => charsOf_exprPieces g depth left h.1)
    have hright := charsOf_wrapPieces (needsSide op.precedence true right) .blank _ _
      (fun g => charsOf_exprPieces g depth right h.2)
    rw [← exprText_beside] at hleft hright
    simp [exprPieces, exprText, BinaryOp.text, wrapIf, Gap.chars, hleft, hright]
  | .call _ callee args, h => by
    have hcallee := charsOf_wrapPieces (needsWrap callee) g _ _
      (fun g => charsOf_exprPieces g depth callee h.1)
    have hargs := charsOf_itemsPieces depth args h.2
    simp [exprPieces, exprText, Sign.text, hcallee, hargs]
  | .member _ object field, h => by
    have hobject := charsOf_wrapPieces (needsWrap object) g _ _
      (fun g => charsOf_exprPieces g depth object h.1)
    simp [exprPieces, exprText, Word.text, Sign.text, Gap.chars, hobject]
  | .method _ object field args, h => by
    have hobject := charsOf_wrapPieces (needsWrap object) g _ _
      (fun g => charsOf_exprPieces g depth object h.1)
    have hargs := charsOf_itemsPieces depth args h.2.2
    simp [exprPieces, exprText, Word.text, Sign.text, Gap.chars, hobject, hargs]
  | .index _ object subscript, h => by
    have hobject := charsOf_wrapPieces (needsWrap object) g _ _
      (fun g => charsOf_exprPieces g depth object h.1)
    have hsubscript := charsOf_exprPieces .nothing depth subscript h.2
    simp [exprPieces, exprText, Sign.text, Gap.chars, hobject, hsubscript]
  | .lambda _ params body, h => by
    have hbody := charsOf_blockPieces depth body h.2
    simp [exprPieces, exprText, Word.text, Keyword.text, charsOf_paramsPieces, hbody]

theorem charsOf_itemsPieces (depth : Nat) : (items : List Expr) → ExprsLegible items →
    charsOf (itemsPieces depth items) = (itemsText depth items).toList
  | [], _ => by simp [itemsPieces, itemsText]
  | [e], h => by
    have he := charsOf_exprPieces .nothing depth e h.1
    simp [itemsPieces, itemsText, moreItemsPieces, he, Gap.chars]
  | e :: d :: es, h => by
    have he := charsOf_exprPieces .nothing depth e h.1
    have hmore := charsOf_moreItemsPieces depth (d :: es) h.2 (List.cons_ne_nil d es)
    simp [itemsPieces, itemsText, he, hmore, Gap.chars]

theorem charsOf_moreItemsPieces (depth : Nat) : (items : List Expr) → ExprsLegible items →
    items ≠ [] →
    charsOf (moreItemsPieces depth items) = ',' :: ' ' :: (itemsText depth items).toList
  | [], _, hne => absurd rfl hne
  | [e], h, _ => by
    have he := charsOf_exprPieces .blank depth e h.1
    simp [moreItemsPieces, itemsText, Sign.text, he, Gap.chars]
  | e :: d :: es, h, _ => by
    have he := charsOf_exprPieces .blank depth e h.1
    have hmore := charsOf_moreItemsPieces depth (d :: es) h.2 (List.cons_ne_nil d es)
    rw [moreItemsPieces, charsOf_append, hmore]
    simp [itemsText, Sign.text, he, Gap.chars]

theorem charsOf_blockPieces (depth : Nat) : (b : Block) → b.Legible →
    charsOf (blockPieces depth b) = ' ' :: (blockText depth b).toList
  | .mk _ [], _ => by simp [blockPieces, blockText, Sign.text]
  | .mk _ (s :: ss), h => by
    have hlines := append_line_end (charsOf_linesPieces (depth + 1) (s :: ss) h)
    simp [blockPieces, blockText, chars_line, Word.text, Sign.text, hlines]

theorem charsOf_linesPieces (depth : Nat) : (ss : List Stmt) → StmtsLegible ss →
    charsOf (linesPieces depth ss) ++ ['\n'] = '\n' :: (linesText depth ss).toList
  | [], _ => by simp [linesPieces, linesText]
  | s :: ss, h => by
    have hs := charsOf_stmtPieces (.line depth) depth s h.1
    have hss := charsOf_linesPieces depth ss h.2
    simp [linesPieces, linesText, hs, hss, chars_line]

theorem charsOf_branchesPieces (g : Gap) (depth : Nat) (k : Keyword) (word : String)
    (hword : word.toList = g.chars ++ k.text.toList ++ [' ']) : (bs : List Branch) →
    BranchesLegible bs →
    charsOf (branchesPieces g depth k bs) = (branchesText depth word bs).toList
  | [], _ => by simp [branchesPieces, branchesText]
  | .mk _ condition body :: bs, h => by
    have hcondition := charsOf_exprPieces .blank depth condition h.1
    have hbody := charsOf_blockPieces depth body h.2.1
    have hbs := charsOf_branchesPieces .blank depth .elifWord " elif " (by rfl) bs h.2.2
    simp [branchesPieces, branchesText, Word.text, Gap.chars, hword, hcondition, hbody, hbs]

theorem charsOf_funcPieces (g : Gap) (depth : Nat) : (f : Func) → f.Legible →
    charsOf (funcPieces g depth f) = g.chars ++ (funcText depth f).toList
  | .mk _ ident params hint body, h => by
    have hbody := charsOf_blockPieces depth body h.2.2.2
    cases hint <;>
      simp [funcPieces, funcText, charsOf_paramsPieces, charsOf_hintPieces, hbody, Word.text,
        Keyword.text, Gap.chars]

theorem charsOf_methodsPieces (depth : Nat) : (fs : List Func) → FuncsLegible fs →
    charsOf (methodsPieces depth fs) ++ ['\n'] = '\n' :: (methodsText depth fs).toList
  | [], _ => by simp [methodsPieces, methodsText]
  | f :: fs, h => by
    have hf := charsOf_funcPieces (.line depth) depth f h.1
    have hfs := charsOf_methodsPieces depth fs h.2
    simp [methodsPieces, methodsText, hf, hfs, chars_line]

theorem charsOf_stmtPieces (g : Gap) (depth : Nat) : (s : Stmt) → s.Legible →
    charsOf (stmtPieces g depth s) = g.chars ++ (stmtText depth s).toList
  | .expr _ _ value, h => by
    rw [stmtPieces, stmtText, charsOf_exprPieces g depth value h]
  | .assign _ target value, h => by
    have hvalue := charsOf_exprPieces .blank depth value h.2
    simp [stmtPieces, stmtText, Word.text, Sign.text, Gap.chars, hvalue]
  | .store _ _ object subscript value, h => by
    have hobject := charsOf_wrapPieces (needsWrap object) g _ _
      (fun g => charsOf_exprPieces g depth object h.1)
    have hsubscript := charsOf_exprPieces .nothing depth subscript h.2.1
    have hvalue := charsOf_exprPieces .blank depth value h.2.2
    simp [stmtPieces, stmtText, Sign.text, Gap.chars, hobject, hsubscript, hvalue]
  | .choose _ [] none, h => absurd rfl h.1
  | .choose _ [] (some _), h => absurd rfl h.1
  | .choose _ (.mk _ condition body :: bs) none, h => by
    have hcondition := charsOf_exprPieces .blank depth condition h.2.1.1
    have hbody := charsOf_blockPieces depth body h.2.1.2.1
    have hbs := charsOf_branchesPieces .blank depth .elifWord " elif " (by rfl) bs h.2.1.2.2
    simp [stmtPieces, stmtText, branchesPieces, branchesText, Word.text, Keyword.text, Gap.chars,
      hcondition, hbody, hbs]
  | .choose _ (.mk _ condition body :: bs) (some b), h => by
    have hcondition := charsOf_exprPieces .blank depth condition h.2.1.1
    have hbody := charsOf_blockPieces depth body h.2.1.2.1
    have hbs := charsOf_branchesPieces .blank depth .elifWord " elif " (by rfl) bs h.2.1.2.2
    have hb := charsOf_blockPieces depth b h.2.2
    simp [stmtPieces, stmtText, branchesPieces, branchesText, Word.text, Keyword.text, Gap.chars,
      hcondition, hbody, hbs, hb]
  | .repeatWhile _ condition body, h => by
    have hcondition := charsOf_exprPieces .blank depth condition h.1
    have hbody := charsOf_blockPieces depth body h.2
    simp [stmtPieces, stmtText, Word.text, Keyword.text, Gap.chars, hcondition, hbody]
  | .forEach _ item source body, h => by
    have hsource := charsOf_exprPieces .blank depth source h.2.1
    have hbody := charsOf_blockPieces depth body h.2.2
    simp [stmtPieces, stmtText, Word.text, Keyword.text, Gap.chars, hsource, hbody]
  | .declare f, h => by rw [stmtPieces, stmtText, charsOf_funcPieces g depth f h]
  | .classDef _ ident fields [], _ => by
    simp [stmtPieces, stmtText, Word.text, Keyword.text, Sign.text, Gap.chars,
      charsOf_paramsPieces]
  | .classDef _ ident fields (m :: ms), h => by
    have hmethods := append_line_end (charsOf_methodsPieces (depth + 1) (m :: ms) h.2.2)
    simp [stmtPieces, stmtText, Word.text, Keyword.text, Sign.text, chars_blank, chars_line,
      charsOf_paramsPieces, hmethods]
  | .giveBack _ none, _ => by simp [stmtPieces, stmtText, Word.text, Keyword.text]
  | .giveBack _ (some e), h => by
    have he := charsOf_exprPieces .blank depth e h
    simp [stmtPieces, stmtText, Word.text, Keyword.text, Gap.chars, he]
  | .leave _, _ => by simp [stmtPieces, stmtText, Word.text, Keyword.text]
  | .skip _, _ => by simp [stmtPieces, stmtText, Word.text, Keyword.text]

end

/-- The text of a program is that of its words, and a line end. -/
theorem linesText_eq_charsOf (s : Stmt) (ss : List Stmt) (h : StmtsLegible (s :: ss)) :
    (linesText 0 (s :: ss)).toList = charsOf (programPieces (s :: ss)) ++ ['\n'] := by
  have hs := charsOf_stmtPieces .nothing 0 s h.1
  have hss := charsOf_linesPieces 0 ss h.2
  simp [programPieces, linesText, hs, hss, margin, Gap.chars]

end Layout

end Scriptlet
