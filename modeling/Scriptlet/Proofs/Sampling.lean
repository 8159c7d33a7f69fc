/-
Sample programs are programs.  Whatever bytes are drawn from, and also where none
are left, each kind of text that is drawn is cut into legal tokens and read
without a fault.
-/
import Scriptlet.Sampler
import Scriptlet.Proofs.ChainTexts

namespace Scriptlet.Sampler

open Lexer Layout Scriptlet.Parser

/-- Whether all that is drawn is so, whatever the bytes. -/
def Yields {α : Type} (draw : Draw α) (P : α → Prop) : Prop := ∀ bytes, P (draw bytes).1

section Draws

variable {α β : Type} {draw : Draw α} {P : α → Prop} {Q : β → Prop}

theorem Yields.pure {a : α} (h : P a) : Yields (Pure.pure a) P := fun _ => h

theorem Yields.bind {f : α → Draw β} (h : Yields draw P) (hf : ∀ a, P a → Yields (f a) Q) :
    Yields (draw >>= f) Q := fun bytes => hf _ (h bytes) (draw bytes).2

theorem Yields.imp {P' : α → Prop} (h : Yields draw P) (himp : ∀ a, P a → P' a) :
    Yields draw P' := fun bytes => himp _ (h bytes)

theorem yields_below {n : Nat} (h : 0 < n) : Yields (below n) (· < n) := by
  intro bytes
  cases bytes with
  | nil => exact h
  | cons b rest =>
      rw [below, if_neg (Nat.ne_of_gt h)]
      exact Nat.mod_lt _ h

theorem yields_oneOf {words : List String} (h : words ≠ []) : Yields (oneOf words) (· ∈ words) := by
  refine (yields_below (List.length_pos_iff.mpr h)).bind fun i hi => Yields.pure ?_
  rw [List.getD_eq_getElem _ _ hi]
  exact List.getElem_mem hi

theorem yields_several {draw : Draw String} {P : String → Prop} (h : Yields draw P) (n : Nat) :
    Yields (several draw n) fun ss => ss.length = n ∧ ∀ s ∈ ss, P s := by
  induction n with
  | zero => exact .pure ⟨rfl, fun s hs => absurd hs List.not_mem_nil⟩
  | succ n ih =>
      refine h.bind fun s hs => ih.bind fun ss hss => .pure ⟨congrArg Nat.succ hss.1, ?_⟩
      exact List.forall_mem_cons.mpr ⟨hs, hss.2⟩

end Draws

/-- Whether some characters form a name, by looking at each of them. -/
def looksNamed (n : String) : Bool :=
  (match n.toList with
    | [] => false
    | c :: cs => isLetter c && cs.all isNameChar) && (Keyword.ofString? n).isNone

theorem isName_of_looksNamed {n : String} (h : looksNamed n = true) : IsName n := by
  rw [looksNamed, Bool.and_eq_true, Option.isNone_iff_eq_none] at h
  refine ⟨?_, h.2⟩
  cases hn : n.toList with
  | nil =>
      rw [hn] at h
      exact absurd h.1 Bool.noConfusion
  | cons c cs =>
      rw [hn, Bool.and_eq_true, List.all_eq_true] at h
      exact ⟨c, cs, rfl, h.1⟩

theorem yields_name {names : List String} (hne : names ≠ [])
    (h : ∀ n ∈ names, looksNamed n = true) : Yields (oneOf names) IsName :=
  (yields_oneOf hne).imp fun n hn => isName_of_looksNamed (h n hn)

theorem yields_variableName : Yields variableName IsName :=
  yields_name (by decide) (by decide)

def paramNamed (n : String) : Param := ⟨⟨n, .nowhere⟩, none⟩

/-- Names between parentheses, when they differ, are parameters. -/
theorem params_named (names : List String) (h : ∀ n ∈ names, looksNamed n = true)
    (hnodup : names.Nodup) : ParamsLegible (names.map paramNamed) ∧
      paramsText (names.map paramNamed) = "(" ++ ", ".intercalate names ++ ")" := by
  refine ⟨⟨?_, ?_⟩, ?_⟩
  · intro p hp
    obtain ⟨n, hn, rfl⟩ := List.mem_map.mp hp
    exact ⟨isName_of_looksNamed (h n hn), fun i hi => absurd hi (Option.some_ne_none i).symm⟩
  · rw [List.map_map]
    exact (List.map_id' names).symm ▸ hnodup
  · rw [paramsText, List.map_map]
    exact congrArg (fun ns => "(" ++ ", ".intercalate ns ++ ")") (List.map_id' names)

/-- Whether a text between parentheses is no more than two parameters. -/
def IsParams (s : String) : Prop :=
  ∃ ps, ParamsLegible ps ∧ (paramsPieces ps).length ≤ 5 ∧ paramsText ps = "(" ++ s ++ ")"

theorem yields_params : Yields params IsParams := by
  refine (yields_below (by decide)).bind fun n hn => .pure ?_
  have hnamed : (∀ m ∈ (List.range n).map fun i => "p" ++ toString i, looksNamed m = true) ∧
      ((List.range n).map fun i => "p" ++ toString i).Nodup ∧
      (paramsPieces (((List.range n).map fun i => "p" ++ toString i).map paramNamed)).length ≤
        5 := by
    interval_cases n <;> decide
  obtain ⟨hlegible, htext⟩ := params_named _ hnamed.1 hnamed.2.1
  exact ⟨_, hlegible, hnamed.2.2, htext⟩

theorem chainText_nat {n : Nat} (h : n < 2 ^ 63) : ChainText 1 (toString n) := by
  have hvalue := Int64.toInt_ofNat_of_lt h
  refine chainText_word (w := .int (Int64.ofNat n)) ?_ rfl ?_
  · rw [Word.Legible, Int64.le_iff_toInt_le, hvalue]
    exact Int.natCast_nonneg n
  · rw [Word.text, hvalue]
    rfl

theorem chainText_fraction {n m : Nat} (hn : n < 10 ^ 2) (hm : m < 10 ^ 2) :
    ChainText 1 (toString n ++ "." ++ toString m) := by
  have hlength := (Nat.length_toDigits_le_iff (b := 10) (by decide) (by decide)).mpr hm
  have hnumeral : numeral (Nat.toDigits 10 n ++ Nat.toDigits 10 m) =
      10 ^ (Nat.toDigits 10 m).length * n + m := by
    rw [Decimal.numeral_eq, Nat.ofDigitChars_append, Nat.ofDigitChars_eq_ofDigitChars_zero,
      Nat.ofDigitChars_ten_toDigits, Nat.ofDigitChars_ten_toDigits]
  refine chainText_float (Nat.toDigits 10 n) (Nat.toDigits 10 m) (k := 14)
    Nat.toDigits_ne_nil Nat.toDigits_ne_nil ?_ ?_ (by decide) (by simp)
  · exact List.forall_mem_append.mpr
      ⟨fun _ => Decimal.isDigit_of_mem_toDigits, fun _ => Decimal.isDigit_of_mem_toDigits⟩
  · have hpow : 10 ^ (Nat.toDigits 10 m).length ≤ 10 ^ 2 :=
      Nat.pow_le_pow_right (by decide) hlength
    have hwhole := Nat.mul_lt_mul_of_le_of_lt hpow hn (by decide)
    have hsmall : 10 ^ (Nat.toDigits 10 m).length * n + m < 2 ^ 14 := by omega
    rwa [hnumeral]

/-- Words that are each an expression. -/
theorem yields_words {words : List String} (hne : words ≠ [])
    (h : ∀ s ∈ words, ChainText 2 s) : Yields (oneOf words) (ChainText 4) :=
  (yields_oneOf hne).imp fun s hs => (h s hs).mono (by decide)

theorem chainText_numeral {n : Nat} (h : n < 2 ^ 63) {s : String} (hs : s = toString n) :
    ChainText 2 s := by
  rw [hs]
  exact (chainText_nat h).mono (by decide)

theorem yields_literal : Yields literal (ChainText 4) := by
  refine (yields_below (by decide)).bind fun n _ => ?_
  split
  case h_1 =>
    refine (yields_below (by decide)).bind fun i hi => .pure ?_
    exact (chainText_nat (hi.trans (by decide))).mono (by decide)
  case h_2 =>
    refine yields_words (by decide) ?_
    simp only [List.forall_mem_cons]
    refine ⟨chainText_numeral (n := 9223372036854775807) (by decide) rfl,
      chainText_numeral (n := 4294967296) (by decide) rfl,
      chainText_numeral (n := 0) (by decide) rfl, ?_, List.forall_mem_nil _⟩
    exact (chainText_nat (n := 1) (by decide)).behind_sign .negate
  case h_3 =>
    refine (yields_below (by decide)).bind fun i hi => (yields_below (by decide)).bind
      fun j hj => .pure ?_
    exact (chainText_fraction hi hj).mono (by decide)
  case h_4 =>
    refine (yields_oneOf (by decide)).bind fun s _ => .pure ?_
    exact (chainText_word (w := .str s) trivial rfl rfl).mono (by decide)
  case h_5 =>
    refine yields_words (by decide) ?_
    simp only [List.forall_mem_cons]
    refine ⟨(chainText_word (w := .keyword .trueWord) trivial rfl rfl).mono (by decide),
      (chainText_word (w := .keyword .falseWord) trivial rfl rfl).mono (by decide),
      List.forall_mem_nil _⟩
  case h_6 =>
    exact .pure ((chainText_word (w := .keyword .nullWord) trivial rfl rfl).mono (by decide))
  case h_7 =>
    refine .pure ((chainText_word (w := .name "None") ?_ rfl rfl).mono (by decide))
    exact isName_of_looksNamed (by decide)
  case h_8 => exact .pure ((chainText_list enclosed_nothing).mono (by decide))
  case h_9 =>
    refine (yields_below (by decide)).bind fun i hi => .pure ?_
    have hrange : IsName "range" := isName_of_looksNamed (by decide)
    exact chainText_call hrange (chainText_nat (hi.trans (by decide))).enclosed

/-- How many tokens an expression that nests at most `level` deep has. -/
def expressionSize : Nat → Nat
  | 0 => 4
  | level + 1 => 2 * expressionSize level + 5

theorem four_le_expressionSize (level : Nat) : 4 ≤ expressionSize level := by
  induction level with
  | zero => exact Nat.le_refl 4
  | succ level ih =>
      rw [expressionSize]
      omega

theorem exists_binaryOp : ∀ s ∈ ["+", "-", "*", "/", "%", "==", "!=", "<", ">", "<=", ">=", "&&",
    "||"], ∃ op ∈ [BinaryOp.add, .sub, .mul, .div, .mod, .less, .greater, .lessEq, .greaterEq,
      .equal, .notEqual, .both, .either], op.text = s := by
  decide

theorem chainText_variable {n : String} (hn : IsName n) : ChainText 1 n :=
  chainText_word (w := .name n) hn rfl rfl

/-- The calls of methods are calls with at most one simple word between the parentheses. -/
theorem exists_call {s : String} (hs : s ∈ ["len()", "sum()", "push(x)", "pop()", "get(0)",
    "unwrap()", "abs()", "split(\",\")"]) :
    ∃ m args, s = m ++ "(" ++ args ++ ")" ∧ IsName m ∧ Lexes args Apart (IsEnclosed 1) := by
  have hnothing : Lexes "" Apart (IsEnclosed 1) := enclosed_nothing.imp fun _ _ _ h =>
    ⟨h.1, h.2.1, h.2.2.trans (Nat.zero_le 1)⟩
  have hcall {s : String} (m args : String) (hsame : s = m ++ "(" ++ args ++ ")")
      (hm : looksNamed m = true) (hargs : Lexes args Apart (IsEnclosed 1)) :
      ∃ m args, s = m ++ "(" ++ args ++ ")" ∧ IsName m ∧ Lexes args Apart (IsEnclosed 1) :=
    ⟨m, args, hsame, isName_of_looksNamed hm, hargs⟩
  have hx := (chainText_variable (n := "x") (isName_of_looksNamed (by decide))).enclosed
  have hcomma := (chainText_word (w := .str ",") (s := "\",\"") trivial rfl (by cbv)).enclosed
  simp only [List.mem_cons, List.not_mem_nil, or_false] at hs
  obtain rfl | rfl | rfl | rfl | rfl | rfl | rfl | rfl := hs
  · exact hcall "len" "" rfl (by decide) hnothing
  · exact hcall "sum" "" rfl (by decide) hnothing
  · exact hcall "push" "x" rfl (by decide) hx
  · exact hcall "pop" "" rfl (by decide) hnothing
  · exact hcall "get" "0" rfl (by decide) (chainText_nat (n := 0) (by decide)).enclosed
  · exact hcall "unwrap" "" rfl (by decide) hnothing
  · exact hcall "abs" "" rfl (by decide) hnothing
  · exact hcall "split" "\",\"" rfl (by decide) hcomma

/-- A function without a name, as it is drawn. -/
theorem chainText_closure {names : String} (hnames : IsParams names) {size : Nat} {s : String}
    (h : ChainText size s) :
    ChainText (size + 9) ("fn(" ++ names ++ ") \x7b return " ++ s ++ " \x7d") := by
  obtain ⟨ps, hps, hlength, htext⟩ := hnames
  have hsame : "fn(" ++ names ++ ") \x7b return " ++ s ++ " \x7d" =
      "fn" ++ paramsText ps ++ " " ++
        ("\x7b" ++ " " ++ ("return" ++ " " ++ s) ++ " " ++ "\x7d") := by
    rw [htext, ← String.toList_inj]
    simp
  rw [hsame]
  exact (chainText_lambda hps h).mono (by omega)

theorem yields_expression (level : Nat) :
    Yields (expression level) (ChainText (expressionSize level)) := by
  induction level with
  | zero => exact yields_literal
  | succ level ih =>
      have hsize := four_le_expressionSize level
      refine (yields_below (by decide)).bind fun n _ => ?_
      rw [expressionSize]
      split
      case h_1 | h_2 => exact yields_literal.imp fun s hs => hs.mono (by omega)
      case h_3 | h_4 =>
        exact yields_variableName.imp fun n hn => (chainText_variable hn).mono (by omega)
      case h_5 | h_6 =>
        refine (yields_oneOf (by decide)).bind fun op hop => ih.bind fun left hleft =>
          ih.bind fun right hright => .pure ?_
        obtain ⟨op, -, rfl⟩ := exists_binaryOp op hop
        exact (hleft.binary hright op).mono (by omega)
      case h_7 =>
        refine (yields_oneOf (by decide)).bind fun op hop => ih.bind fun s hs => .pure ?_
        simp only [List.mem_cons, List.not_mem_nil, or_false] at hop
        obtain rfl | rfl := hop
        · exact (hs.behind_sign .negate).mono (by omega)
        · exact (hs.behind_sign .invert).mono (by omega)
      case h_8 => exact ih.bind fun s hs => .pure (hs.parens.mono (by omega))
      case h_9 =>
        refine ih.bind fun s hs => ih.bind fun t ht => .pure ?_
        have hlist := chainText_list (hs.pair ht)
        rw [← String.append_assoc, ← String.append_assoc] at hlist
        exact hlist.mono (by omega)
      case h_10 =>
        exact yields_variableName.bind fun n hn => ih.bind fun s hs =>
          .pure ((chainText_index hn hs).mono (by omega))
      case h_11 =>
        refine (yields_oneOf (by decide)).bind fun method hmethod =>
          yields_variableName.bind fun n hn => .pure ?_
        obtain ⟨m, args, rfl, hm, hargs⟩ := exists_call hmethod
        exact (chainText_method hn hm hargs).mono (by omega)
      case h_12 =>
        exact (yields_name (by decide) (by decide)).bind fun n hn => ih.bind fun s hs =>
          .pure ((chainText_call hn hs.enclosed).mono (by omega))
      case h_13 =>
        exact yields_params.bind fun names hnames => ih.bind fun s hs =>
          .pure ((chainText_closure hnames hs).mono (by omega))
      case h_14 =>
        refine yields_literal.bind fun s hs => yields_literal.bind fun t ht => .pure ?_
        have hsame : s ++ " * " ++ t = s ++ " " ++ BinaryOp.mul.text ++ " " ++ t := by
          rw [← String.toList_inj]
          simp [BinaryOp.text, BinaryOp.sign, Sign.text]
        rw [hsame]
        exact (hs.binary ht .mul).mono (by omega)

variable {room level : Nat}

theorem bracesText_braces {lines : List String} (hne : lines ≠ [])
    (h : ∀ s ∈ lines, StatementText room s) : BracesText room (braces lines) := by
  have hbraces := (linesText_intercalate hne h).braces (.line 0) "\n" rfl
    Gap.noConfusion
  have hsame : braces lines = "\x7b" ++ "\n" ++ "\n".intercalate lines ++ "\n" ++ "\x7d" := by
    rw [braces, ← String.toList_inj]
    simp
  rwa [hsame]

def AreStatements (room : Nat) (lines : List String) : Prop :=
  lines ≠ [] ∧ ∀ s ∈ lines, StatementText room s

theorem AreStatements.braces {lines : List String} (h : AreStatements room lines) :
    BracesText room (braces lines) := bracesText_braces h.1 h.2

section Blocks

variable {draw : Draw String}

theorem yields_line (h : Yields draw (StatementText room)) (inLoop : Bool) :
    Yields (block.line inLoop draw) (StatementText room) := by
  cases inLoop with
  | false => exact h
  | true =>
      refine (yields_below (by decide)).bind fun n _ => ?_
      split
      · refine (yields_oneOf (by decide)).imp fun s hs => statementText_leave ?_
        simpa using hs
      · exact h

theorem yields_statements (h : Yields draw (StatementText room)) (n : Nat) :
    Yields (several draw (n + 1)) (AreStatements room) :=
  (yields_several h (n + 1)).imp fun _ hss => ⟨List.ne_nil_of_length_eq_add_one hss.1, hss.2⟩

theorem yields_block (h : Yields draw (StatementText room)) (inLoop : Bool) :
    Yields (block inLoop draw) (AreStatements room) :=
  (yields_below (by decide)).bind fun n _ => yields_statements (yields_line h inLoop) n

theorem yields_functionBody (h : Yields draw (StatementText room))
    (hroom : expressionSize level ≤ room) :
    Yields (functionBody level draw) (BracesText room) := by
  refine (yields_block h false).bind fun lines hlines =>
    (yields_expression level).bind fun s hs => .pure ?_
  refine bracesText_braces (List.append_ne_nil_of_left_ne_nil hlines.1 _) ?_
  exact List.forall_mem_append.mpr
    ⟨hlines.2, List.forall_mem_singleton.mpr (statementText_return hs hroom)⟩

theorem yields_method (h : Yields draw (StatementText room))
    (hroom : expressionSize level ≤ room) :
    Yields (method level draw) (FunctionText room) := by
  have hparams := params_named ["self", "o"] (by decide) (by decide)
  refine (yields_name (by decide) (by decide)).bind fun n hn =>
    (yields_functionBody h hroom).bind fun body hbody => .pure ?_
  have hfunction := functionText hn hparams.1 hbody
  have hsame : "fn " ++ n ++ "(self, o) " ++ body =
      "fn " ++ n ++ ("(" ++ ", ".intercalate ["self", "o"] ++ ")") ++ " " ++ body := by
    rw [← String.toList_inj]
    simp
  rwa [hsame, ← hparams.2]

theorem yields_classText (h : Yields draw (StatementText room))
    (hroom : expressionSize level ≤ room) :
    Yields (classText level draw) (StatementText room) := by
  refine (yields_below (by decide)).bind fun i hi => ?_
  have hn : IsName ("C" ++ toString i) := isName_of_looksNamed (by interval_cases i <;> decide)
  generalize "C" ++ toString i = n at hn
  refine (yields_below (by decide)).bind fun k _ => ?_
  split
  · refine yields_params.bind fun names ⟨ps, hps, _, htext⟩ => .pure ?_
    have hsame : "class " ++ n ++ "(" ++ names ++ ");" =
        "class" ++ (" " ++ n ++ paramsText ps) ++ ";" := by
      rw [htext, ← String.toList_inj]
      simp
    rw [hsame]
    exact statementText_fields hn hps
  · refine (yields_below (by decide)).bind fun m _ =>
      (yields_several (yields_method h hroom) (m + 1)).bind fun methods hmethods =>
        yields_params.bind fun names ⟨ps, hps, _, htext⟩ => .pure ?_
    have hsame : "class " ++ n ++ "(" ++ names ++ ") \x7b " ++ "\n".intercalate methods ++ " \x7d" =
        "class" ++ (" " ++ n ++ paramsText ps) ++ " \x7b " ++ "\n".intercalate methods ++
          " \x7d" := by
      rw [htext, ← String.toList_inj]
      simp
    rw [hsame]
    exact statementText_methods hn hps
      (methodsText_intercalate (List.ne_nil_of_length_eq_add_one hmethods.1) hmethods.2)

/-- A text made with what a choice does otherwise, if anything. -/
theorem yields_otherwise (h : Yields draw (StatementText room)) {text : String → String}
    (htext : ∀ s, FurtherText room s → StatementText room (text s)) :
    Yields (do
      let third ←
        if (← below 2) = 0 then do pure (" else " ++ braces (← block false draw)) else pure ""
      return text third) (StatementText room) := by
  refine (yields_below (by decide)).bind fun n _ => ?_
  dsimp only
  split
  · exact (yields_block h false).bind fun lines hlines =>
      .pure (htext _ (furtherText_otherwise hlines.braces))
  · exact .pure (htext _ furtherText_nothing)

theorem yields_choice (h : Yields draw (StatementText room))
    (hroom : expressionSize level ≤ room) :
    Yields (choice level draw) (StatementText room) := by
  have hbranch : ∀ {condition : String} {lines : List String},
      ChainText (expressionSize level) condition → AreStatements room lines →
      Lexes (condition ++ " " ++ braces lines) Apart (IsBranch room) := fun hs hlines =>
    lexes_branch hs hlines.braces hroom
  refine (yields_expression level).bind fun condition hcondition =>
    (yields_block h false).bind fun lines hlines => (yields_below (by decide)).bind fun n _ => ?_
  have hfirst := hbranch hcondition hlines
  dsimp only
  split
  · refine (yields_expression level).bind fun condition' hcondition' =>
      (yields_block h false).bind fun lines' hlines' => yields_otherwise h fun third hthird => ?_
    have hstatement := statementText_choice hfirst
      (hthird.behind_branch (hbranch hcondition' hlines'))
    simpa only [String.append_assoc] using hstatement
  · refine yields_otherwise h fun third hthird => ?_
    have hstatement := statementText_choice hfirst hthird
    simpa only [String.append_assoc, String.append_empty] using hstatement

end Blocks

theorem yields_assignment (hroom : expressionSize level ≤ room) :
    Yields (assignment level) (StatementText room) := by
  have hsize := four_le_expressionSize level
  exact yields_variableName.bind fun n hn => (yields_expression level).bind fun s hs =>
    .pure (statementText_assign (targetText_name hn) hs (by omega) hroom)

/-- A loop, or a function with a name, is a statement, and so is all else that is
drawn where a statement is wanted. -/
theorem yields_statement (level : Nat) (hroom : expressionSize level + 3 ≤ room) :
    Yields (statement level) (StatementText room) := by
  induction level with
  | zero => exact yields_assignment (by omega)
  | succ level ih =>
      have hsmaller : expressionSize level + 3 ≤ room := by
        rw [expressionSize] at hroom
        omega
      have hfits : expressionSize level ≤ room := by omega
      have hstatement := ih hsmaller
      refine (yields_below (by decide)).bind fun n _ => ?_
      split
      case h_1 | h_2 | h_3 => exact yields_assignment hfits
      case h_4 =>
        refine (yields_below (by decide)).bind fun i hi => yields_params.bind
          fun names ⟨ps, hps, _, htext⟩ => (yields_functionBody hstatement hfits).bind
            fun body hbody => .pure ?_
        have hn : IsName ("f" ++ toString i) :=
          isName_of_looksNamed (by interval_cases i <;> decide)
        have hsame : "fn f" ++ toString i ++ "(" ++ names ++ ") " ++ body =
            "fn " ++ ("f" ++ toString i) ++ paramsText ps ++ " " ++ body := by
          rw [htext, ← String.toList_inj]
          simp
        rw [hsame]
        exact (functionText hn hps hbody).statement
      case h_5 => exact yields_classText hstatement hfits
      case h_6 => exact yields_choice hstatement hfits
      case h_7 =>
        refine yields_variableName.bind fun n hn => (yields_expression level).bind fun s hs =>
          (yields_block hstatement true).bind fun lines hlines => .pure ?_
        have hloop := statementText_for hn (lexes_branch hs hlines.braces hfits)
        simpa only [String.append_assoc] using hloop
      case h_8 =>
        refine (yields_expression level).bind fun s hs =>
          (yields_block hstatement true).bind fun lines hlines => .pure ?_
        have hloop := statementText_while (lexes_branch hs hlines.braces hfits)
        simpa only [String.append_assoc] using hloop
      case h_9 =>
        refine yields_variableName.bind fun n hn => (yields_expression level).bind fun s hs =>
          (yields_expression level).bind fun t ht => .pure ?_
        have hstore := statementText_assign (targetText_index hn hs) ht hsmaller hfits
        have hsame : n ++ "[" ++ s ++ "] = " ++ t = n ++ "[" ++ s ++ "]" ++ " = " ++ t := by
          rw [← String.toList_inj]
          simp
        rwa [hsame]
      case h_10 =>
        have hprint : IsName "print" := isName_of_looksNamed (by decide)
        exact (yields_expression level).bind fun s hs =>
          .pure (statementText_chain (chainText_call hprint hs.enclosed) hsmaller)
      case h_11 =>
        exact (yields_expression level).imp fun s hs => statementText_chain hs hfits

/-- How many tokens an expression of a program has at most, with those of a
subscript around it. -/
def programRoom : Nat := expressionSize levels + 3

/-- Statements each of which ends its line. -/
theorem lexes_program {lines : List String} (h : AreStatements programRoom lines) :
    Lexes (String.join (lines.map fun line => line ++ "\n")) Anything
      fun first last ts => ∃ line < last, Lines maxNesting programRoom first line ts := by
  obtain ⟨hne, h⟩ := h
  induction lines with
  | nil => exact absurd rfl hne
  | cons s ss ih =>
      obtain ⟨hs, hss⟩ := List.forall_mem_cons.mp h
      have hline : Lexes (s ++ "\n") Anything (Then (Statement maxNesting programRoom) (Blank 1)) :=
        hs.append lexes_line fun rest _ => apart_append rfl rfl rest
      rw [List.map_cons, String.join_cons]
      cases ss with
      | nil =>
          rw [List.map_nil, String.join_nil, String.append_empty]
          refine hline.imp ?_
          rintro first last _ ⟨line, ts, _, rfl, hts, rfl, rfl⟩
          rw [List.append_nil]
          exact ⟨line, Nat.lt_succ_self line, .one hts⟩
      | cons t ts =>
          refine (hline.append (ih (List.cons_ne_nil t ts) hss) fun _ _ => trivial).imp ?_
          rintro first last _ ⟨_, _, us, rfl, ⟨line, ts, _, rfl, hts, rfl, rfl⟩, line', hless, hus⟩
          rw [List.append_nil]
          exact ⟨line', hless, .more hts (Nat.lt_succ_self line) hus⟩

theorem yields_program : Yields program fun s => Lexes s Anything
    fun first last ts => ∃ line < last, Lines maxNesting programRoom first line ts :=
  (yields_below (by decide)).bind fun n _ =>
    (yields_statements (yields_statement levels (Nat.le_refl _)) n).bind fun _ hlines =>
      .pure (lexes_program hlines)

/-- Whatever bytes a program is drawn from, and wherever they run out, all of its
tokens are legal and it is read without a fault. -/
theorem programOf_reads (bytes : List UInt8) :
    (∀ t ∈ tokens (Text.ofString (programOf bytes)), t.isIllegal = false) ∧
      (parse (Text.ofString (programOf bytes))).2 = [] := by
  obtain ⟨ts, q, htokens, hlegal, line, hless, hlines⟩ :=
    yields_program bytes Position.start [] trivial
  have hall : tokens (Text.ofString (programOf bytes)) = ts ++ [Token.eofAt q] := by
    rw [tokens, Cursor.ofText, Text.chars_ofString, ← tokensFrom_nil, ← htokens, List.append_nil]
    rfl
  rw [parse, hall]
  refine ⟨?_, hlines.statementsOf rfl (Nat.ne_of_gt hless) (by decide)⟩
  exact List.forall_mem_append.mpr ⟨hlegal, List.forall_mem_singleton.mpr rfl⟩

end Scriptlet.Sampler
