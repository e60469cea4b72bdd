import Cminusf.Parser.Scan
import Mathlib.Algebra.Order.Ring.Nat
import Mathlib.Data.List.DropRight

/-! Where `lines`, `pos_start` and `pos_end` place the tokens. The rules of `<COMMENT>` count lines
and leave the columns as they are. -/

namespace Cminusf

variable {k : Terminal} {text cs xs ys rest : List Char} {c : Char} {s : Scanner} {p : Piece}
  {before ps qs : List Piece}

/-- The characters after the last newline. -/
def column (text : List Char) : Nat := (text.rtakeWhile (· ≠ '\n')).length

/-- The characters up to the last newline. -/
def lastNewline (text : List Char) : Nat := (text.rdropWhile (· ≠ '\n')).length

/-- What `yyerror` writes to `stderr`. -/
def errorAt (line column : Nat) (s : String) : String :=
  s!"error at line {line} column {column}: {s}\n"

def yyerror (x : Lexeme) (s : String) : String := errorAt x.lines x.posStart s

namespace Piece

def isNewline : Piece → Bool
  | blank c => c == '\n'
  | _ => false

/-- The characters by which the rules move `pos_end`. -/
def moves : Piece → Nat
  | token _ text => text.length
  | blank _ => 1
  | _ => 0

/-- The characters that leave the columns as they are. -/
def skips : Piece → Nat
  | token _ _ | blank _ => 0
  | p => p.text.length

theorem moves_add_skips (p : Piece) : p.moves + p.skips = p.text.length := by
  cases p <;> simp [moves, skips, text]

end Piece

/-- The pieces after the last newline that is in no comment. -/
def lastLine (ps : List Piece) : List Piece := ps.rtakeWhile fun p => !p.isNewline

def flat (ps : List Piece) : List Char := (ps.map Piece.text).flatten

/-- On the last line, as many characters are skipped as stand up to the last newline there, which is
inside a comment; none when no comment there has one. -/
def Balanced (before : List Piece) : Prop :=
  ((lastLine before).map Piece.skips).sum = lastNewline (flat (lastLine before))

/-- Each token is where the text before it ends. -/
def PositionsRight (cs : List Char) : Prop :=
  ∀ before k text rest, Munches cs (before ++ .token k text :: rest) →
    ∃ x, (scan .start cs).lexemes[(before.filterMap Piece.returned).length]? = some x ∧
      x.token = k ∧ x.text = text ∧ x.lines = 1 + (flat before).count '\n' ∧
      x.posStart = 1 + column (flat before) ∧ x.posEnd = x.posStart + text.length ∧
      ∀ s, yyerror x s = errorAt (1 + (flat before).count '\n') (1 + column (flat before)) s

theorem lastNewline_add_column (text : List Char) :
    lastNewline text + column text = text.length := by
  rw [lastNewline, column, ← List.length_append, List.rdropWhile_append_rtakeWhile]

theorem column_concat (text : List Char) (c : Char) :
    column (text ++ [c]) = if c = '\n' then 0 else column text + 1 := by
  by_cases hc : c = '\n'
  · simp [column, hc]
  · simp [column, hc]

theorem column_append (h : column xs = column ys) (text : List Char) :
    column (xs ++ text) = column (ys ++ text) := by
  induction text using List.reverseRecOn with
  | nil => simpa using h
  | append_singleton text c ih =>
    rw [← List.append_assoc, ← List.append_assoc, column_concat, column_concat, ih]

theorem flat_concat (ps : List Piece) (p : Piece) : flat (ps ++ [p]) = flat ps ++ p.text := by
  simp [flat]

theorem lastLine_concat (ps : List Piece) (p : Piece) :
    lastLine (ps ++ [p]) = if p.isNewline then [] else lastLine ps ++ [p] := by
  by_cases hp : p.isNewline
  · simp [lastLine, hp]
  · simp [lastLine, hp]

theorem Piece.text_of_isNewline (h : p.isNewline) : p.text = ['\n'] := by
  cases p with
  | blank c => rw [Piece.text, beq_iff_eq.mp h]
  | _ => cases h

theorem column_flat (ps : List Piece) : column (flat ps) = column (flat (lastLine ps)) := by
  induction ps using List.reverseRecOn with
  | nil => rfl
  | append_singleton ps p ih =>
    rw [lastLine_concat, flat_concat]
    split
    · rename_i hp
      rw [Piece.text_of_isNewline hp, column_concat, if_pos rfl]
      rfl
    · rw [flat_concat]
      exact column_append ih p.text

theorem length_flat (ps : List Piece) :
    (flat ps).length = (ps.map Piece.moves).sum + (ps.map Piece.skips).sum := by
  induction ps with
  | nil => rfl
  | cons p ps ih =>
    have := p.moves_add_skips
    simp only [flat, List.map_cons, List.flatten_cons, List.length_append, List.sum_cons] at ih ⊢
    omega

/-- The columns of the scanner and of the text agree exactly when the line is balanced. -/
theorem moves_eq_column_iff (before : List Piece) :
    ((lastLine before).map Piece.moves).sum = column (flat before) ↔ Balanced before := by
  have hlen := length_flat (lastLine before)
  have hsplit := lastNewline_add_column (flat (lastLine before))
  rw [Balanced, column_flat]
  omega

/-- Unless a comment on the line has a newline, there must be no comment and no stray character. -/
theorem balanced_iff_of_one_line (h : '\n' ∉ flat (lastLine before)) :
    Balanced before ↔ ∀ p ∈ lastLine before, p.skips = 0 := by
  have hnone : lastNewline (flat (lastLine before)) = 0 := by
    rw [lastNewline, List.length_eq_zero_iff, List.rdropWhile_eq_nil_iff]
    intro c hc
    apply decide_eq_true
    rintro rfl
    exact h hc
  rw [Balanced, hnone, List.sum_eq_zero_iff_forall_eq_nat]
  simp

theorem Piece.after_posEnd (s : Scanner) (p : Piece) :
    (p.after s).posEnd = if p.isNewline then 1 else s.posEnd + p.moves := by
  cases p with
  | blank c =>
    by_cases hc : c = '\n'
    · simp [after, isNewline, hc]
    · simp [after, isNewline, moves, hc, Scanner.advance]
  | _ => rfl

theorem foldl_posEnd (ps : List Piece) :
    (ps.foldl Piece.after .start).posEnd = 1 + ((lastLine ps).map Piece.moves).sum := by
  induction ps using List.reverseRecOn with
  | nil => rfl
  | append_singleton ps p ih =>
    rw [List.foldl_append, List.foldl_cons, List.foldl_nil, Piece.after_posEnd, lastLine_concat]
    split
    · rfl
    · rw [ih, List.map_append, List.sum_append, List.map_singleton, List.sum_singleton]
      omega

theorem text_newline (k : Terminal) : k.text.toList.contains '\n' = false := by
  cases k <;> rfl

theorem IsLexeme.newline (h : IsLexeme text) : '\n' ∉ text := by
  obtain ⟨k, h⟩ := h
  have hfixed : String.ofList text = k.text → '\n' ∉ text := by
    intro he hmem
    have := text_newline k
    rw [← he, String.toList_ofList] at this
    simp [hmem] at this
  cases k with
  | identifier =>
    intro hmem
    cases h.2.1 '\n' (by rwa [String.toList_ofList])
  | integer =>
    intro hmem
    cases h.2 '\n' (by rwa [String.toList_ofList])
  | floatpoint =>
    obtain ⟨whole, part, he, -, hdigit⟩ := h
    rw [String.toList_ofList] at he
    rw [he]
    intro hmem
    have : '\n' ∈ whole ++ part := by simpa using hmem
    cases hdigit _ this
  | _ => exact hfixed h

/-- The lines are counted everywhere. -/
theorem Piece.Begins.lines (h : p.Begins rest) (s : Scanner) :
    (p.after s).lines = s.lines + p.text.count '\n' := by
  cases p with
  | token k text =>
    rw [Piece.text, List.count_eq_zero.mpr (IsLexeme.newline ⟨k, h.2.1⟩)]
    rfl
  | blank c =>
    by_cases hc : c = '\n'
    · simp [after, text, hc]
    · simp [after, text, hc, Scanner.advance]
  | comment body => simp [after, text, List.count_append]
  | unclosed body => simp [after, text]
  | other c =>
    have hc : c ≠ '\n' := by
      rintro rfl
      cases h.1
    simp [after, text, hc]

theorem Munches.begins_of_mem (h : Munches cs ps) (hp : p ∈ ps) : ∃ rest, p.Begins rest := by
  obtain ⟨before, after, rfl⟩ := List.append_of_mem hp
  exact ⟨_, h.begins⟩

theorem foldl_lines (h : ∀ p ∈ ps, ∃ rest, p.Begins rest) :
    (ps.foldl Piece.after .start).lines = 1 + (flat ps).count '\n' := by
  induction ps using List.reverseRecOn with
  | nil => rfl
  | append_singleton ps p ih =>
    obtain ⟨rest, hp⟩ := h p (by simp)
    have ih := ih fun q hq => h q (List.mem_append_left _ hq)
    rw [List.foldl_append, List.foldl_cons, List.foldl_nil, hp.lines, ih, flat_concat,
      List.count_append, Nat.add_assoc]

theorem scanPieces_append (s : Scanner) (ps qs : List Piece) :
    (scanPieces s (ps ++ qs)).lexemes =
      (scanPieces s ps).lexemes ++ (scanPieces (ps.foldl Piece.after s) qs).lexemes := by
  induction ps generalizing s with
  | nil => rfl
  | cons p ps ih =>
    rw [List.cons_append, scanPieces, scanPieces, List.foldl_cons, List.append_assoc, ← ih]

/-- The token after `before` is returned with the positions that the rules give to it. -/
theorem lexeme_at {rest : List Piece} (h : Munches cs (before ++ .token k text :: rest)) :
    (scan .start cs).lexemes[(before.filterMap Piece.returned).length]? =
      some (((before.foldl Piece.after .start).advance text.length).lexeme k text) := by
  rw [scan_munches h rfl, scanPieces_append, ← scanPieces_lexemes .start before, List.length_map,
    List.getElem?_append_right (Nat.le_refl _), Nat.sub_self]
  rfl

/-- The tokens are placed right exactly when the line before each is balanced. -/
theorem positionsRight_iff (cs : List Char) : PositionsRight cs ↔
    ∀ before k text rest, Munches cs (before ++ .token k text :: rest) → Balanced before := by
  have hplace : ∀ before, (before.foldl Piece.after .start).posEnd = 1 + column (flat before) ↔
      Balanced before := by
    intro before
    rw [foldl_posEnd, Nat.add_left_cancel_iff, moves_eq_column_iff]
  constructor
  · intro h before k text rest hm
    obtain ⟨x, hx, -, -, -, hstart, -⟩ := h before k text rest hm
    rw [lexeme_at hm] at hx
    obtain rfl := Option.some.inj hx
    exact (hplace before).mp hstart
  · intro h before k text rest hm
    have hcolumn := (hplace before).mpr (h before k text rest hm)
    have hlines := foldl_lines fun p hp => hm.begins_of_mem (List.mem_append_left _ hp)
    refine ⟨_, lexeme_at hm, rfl, rfl, hlines, hcolumn, rfl, fun s => ?_⟩
    rw [← hlines, ← hcolumn]
    rfl

/-- After `/**/`, a token is said to be in the first column. -/
theorem not_positionsRight : ¬ PositionsRight "/**/int".toList := by
  intro h
  have hlong : ∀ longer, IsLexeme longer → longer <+: "int".toList → longer.length ≤ 3 :=
    fun longer _ hp => hp.length_le
  have hint : Munches "int".toList [.token .int "int".toList] :=
    .cons (p := .token .int "int".toList) ⟨by decide, rfl, hlong⟩ .nil
  have hempty : ¬ "*/".toList <:+: [] := by simp
  have hm : Munches "/**/int".toList [.comment [], .token .int "int".toList] :=
    .cons (p := .comment []) hempty hint
  obtain ⟨x, hx, -, -, -, hstart, -⟩ := h [.comment []] .int "int".toList [] hm
  have hscan : (scan .start "/**/int".toList).lexemes[0]? =
      some ⟨.int, "int".toList, 1, 1, 4⟩ := by
    decide
  rw [show ([Piece.comment []].filterMap Piece.returned).length = 0 from rfl, hscan] at hx
  obtain rfl := Option.some.inj hx
  cases hstart

end Cminusf
