import CanonicalLR.Proofs.Bounds
import Mathlib.Data.List.DropRight
import Mathlib.Data.Nat.Digits.Defs
import Mathlib.Data.String.Basic
import Std.Data.String.ToNat
/-
The table in print. The grid has a line for each state, all lines are of one length, and the field
of a symbol holds the action there and nothing else, so the grid gives the whole table back.
-/
namespace CanonicalLR

section Lines

def endLines (lines : List (List Char)) : List Char := lines.flatMap fun line => line ++ ['\n']

theorem endLines_injective {lines lines' : List (List Char)}
    (clean : ∀ line ∈ lines, '\n' ∉ line) (clean' : ∀ line ∈ lines', '\n' ∉ line)
    (same : endLines lines = endLines lines') : lines = lines' := by
  induction lines generalizing lines' with
  | nil =>
    cases lines' with
    | nil => rfl
    | cons line rest => simp [endLines] at same
  | cons line rest ih =>
    cases lines' with
    | nil => simp [endLines] at same
    | cons line' rest' =>
      rw [List.forall_mem_cons] at clean clean'
      have joined : line ++ '\n' :: endLines rest = line' ++ '\n' :: endLines rest' := by
        simpa [endLines] using same
      obtain ⟨rfl, later⟩ := append_cons_inj_of_not_mem clean.1 clean'.1 joined
      rw [ih clean.2 clean'.2 later]

/-- The field of a column: it follows the margin and the fields before it. -/
def field (width column : Nat) (line : List Char) : List Char :=
  (line.drop (6 + width * column)).take width

def trimmed (text : List Char) : List Char :=
  (text.dropWhile fun c => decide (c = ' ')).rdropWhile fun c => decide (c = ' ')

theorem drop_take_flatten {α : Type} {fields : List (List α)} {width : Nat}
    (widths : ∀ field ∈ fields, field.length = width) (c : Nat) :
    (fields.flatten.drop (width * c)).take width = fields.getD c [] := by
  induction fields generalizing c with
  | nil => simp
  | cons field rest ih =>
    rw [List.forall_mem_cons] at widths
    obtain ⟨rfl, others⟩ := widths
    cases c with
    | zero => simp
    | succ c =>
      have later := ih others c
      rw [List.flatten_cons, Nat.mul_succ, Nat.add_comm, ← List.drop_drop, List.drop_left, later]
      rfl

theorem length_flatten {α : Type} {fields : List (List α)} {width : Nat}
    (widths : ∀ field ∈ fields, field.length = width) :
    fields.flatten.length = width * fields.length := by
  induction fields with
  | nil => rfl
  | cons field rest ih =>
    rw [List.forall_mem_cons] at widths
    rw [List.flatten_cons, List.length_append, ih widths.2, widths.1, List.length_cons,
      Nat.mul_succ, Nat.add_comm]

theorem dropWhile_spaces (n : Nat) (text : List Char) :
    (List.replicate n ' ' ++ text).dropWhile (fun c => decide (c = ' ')) =
      text.dropWhile fun c => decide (c = ' ') := by
  apply List.dropWhile_append_of_pos
  intro c member
  simpa using List.eq_of_mem_replicate member

theorem dropWhile_solid {text : List Char} (solid : ' ' ∉ text) (rest : List Char) :
    (text ++ rest).dropWhile (fun c => decide (c = ' ')) =
      if text = [] then rest.dropWhile fun c => decide (c = ' ') else text ++ rest := by
  cases text with
  | nil => rfl
  | cons c text =>
    have visible : ¬ c = ' ' := (List.ne_of_not_mem_cons solid).symm
    simp [visible]

theorem trimmed_spaces (before after : Nat) {text : List Char} (solid : ' ' ∉ text) :
    trimmed (List.replicate before ' ' ++ (text ++ List.replicate after ' ')) = text := by
  unfold trimmed
  rw [dropWhile_spaces, dropWhile_solid solid]
  by_cases empty : text = []
  · have blank : (List.replicate after ' ').dropWhile (fun c => decide (c = ' ')) = [] := by
      simp
    rw [if_pos empty, blank, empty]
    rfl
  · have kept : (text.reverse ++ []).dropWhile (fun c => decide (c = ' ')) = _ :=
      dropWhile_solid (by simpa using solid) []
    rw [if_neg (by simpa using empty), List.append_nil] at kept
    rw [if_neg empty, List.rdropWhile, List.reverse_append, List.reverse_replicate,
      dropWhile_spaces, kept, List.reverse_reverse]

theorem trimmed_centre (width : Nat) {text : String} (solid : ' ' ∉ text.toList) :
    trimmed (centre width text).toList = text.toList := by
  unfold centre spaces
  simp only [String.toList_append, String.toList_ofList, List.append_assoc]
  exact trimmed_spaces _ _ solid

def Solid (text : String) : Prop := ∀ c ∈ text.toList, c ≠ ' ' ∧ c ≠ '\n'

instance (text : String) : Decidable (Solid text) :=
  List.decidableBAll (fun c => c ≠ ' ' ∧ c ≠ '\n') text.toList

theorem Solid.append {first second : String} (h : Solid first) (h' : Solid second) :
    Solid (first ++ second) := by
  intro c member
  rw [String.toList_append, List.mem_append] at member
  exact member.elim (h c) (h' c)

theorem solid_toString (n : Nat) : Solid (toString n) := by
  intro c member
  have digit : c.isDigit = true := by
    apply Nat.isDigit_of_mem_toDigits (b := 10) (n := n) (by omega) (by omega)
    simpa [Nat.repr] using member
  constructor
  · rintro rfl
    simp at digit
  · rintro rfl
    simp at digit

theorem length_toString {n : Nat} (small : n < 100000) : (toString n).length ≤ 5 :=
  Nat.repr_length n 5 (by omega) (by omega)

theorem length_le_utf8ByteSize (text : String) : text.length ≤ text.utf8ByteSize := by
  have bytes : ∀ chars : List Char, chars.length ≤ String.utf8Len chars := by
    intro chars
    induction chars with
    | nil => exact Nat.le_refl 0
    | cons c rest ih =>
      have positive := c.utf8Size_pos
      rw [String.utf8Len_cons, List.length_cons]
      omega
  have size := String.utf8ByteSize_ofList text.toList
  rw [String.ofList_toList] at size
  rw [size, ← String.length_toList]
  exact bytes text.toList

theorem le_foldl_max {n first : Nat} {others : List Nat} (h : n ∈ first :: others) :
    n ≤ others.foldl max first := by
  induction others generalizing n first with
  | nil => exact Nat.le_of_eq (List.mem_singleton.1 h)
  | cons next rest ih =>
    have start : max first next ≤ rest.foldl max (max first next) := ih List.mem_cons_self
    rcases List.mem_cons.1 h with rfl | later
    · exact Nat.le_trans (Nat.le_max_left _ _) start
    · rcases List.mem_cons.1 later with rfl | last
      · exact Nat.le_trans (Nat.le_max_right _ _) start
      · exact ih (List.mem_cons_of_mem _ last)

theorem six_le_cellWidth (headers : List String) : 6 ≤ cellWidth headers :=
  Nat.succ_le_succ (le_foldl_max List.mem_cons_self)

theorem length_lt_cellWidth {headers : List String} {header : String}
    (member : header ∈ headers) : header.length < cellWidth headers := by
  have bytes := length_le_utf8ByteSize header
  have widest : header.utf8ByteSize ≤ (headers.map String.utf8ByteSize).foldl max 5 :=
    le_foldl_max (List.mem_cons_of_mem 5 (List.mem_map_of_mem member))
  unfold cellWidth
  omega

end Lines

section Cells

def Action.Short : Action → Prop
  | .shift state | .goto state => state < 100000
  | .reduce production => production < 100000
  | .accept => True

theorem solid_cellText (action : Option Action) : Solid (cellText action) := by
  have letters : Solid "s" ∧ Solid "g" ∧ Solid "r" := by decide
  obtain ⟨s, g, r⟩ := letters
  rcases action with _ | state | state | production | _
  · exact of_decide_eq_true rfl
  · exact s.append (solid_toString state)
  · exact g.append (solid_toString state)
  · exact r.append (solid_toString production)
  · exact of_decide_eq_true rfl

theorem length_cellText {action : Option Action} (short : ∀ a, action = some a → a.Short) :
    (cellText action).length ≤ 6 := by
  have letter : ∀ text : String, text.length = 1 →
      ∀ n < 100000, (text ++ toString n).length ≤ 6 := by
    intro text one n small
    have digits := length_toString small
    rw [String.length_append]
    omega
  rcases action with _ | state | state | production | _
  · decide
  · exact letter "s" (by decide) state (short _ rfl)
  · exact letter "g" (by decide) state (short _ rfl)
  · exact letter "r" (by decide) production (short _ rfl)
  · decide

theorem cellText_injective : Function.Injective cellText := by
  have numbers : ∀ {m n : Nat}, Nat.toDigits 10 m = Nat.toDigits 10 n → m = n := by
    intro m n same
    exact Nat.repr_inj.1 (by rw [Nat.repr, Nat.repr, same])
  intro a b same
  rcases a with _ | state | state | production | _ <;>
    rcases b with _ | state' | state' | production' | _ <;>
    simp_all [cellText, ← String.toList_inj]
  · exact numbers same
  · exact numbers same
  · exact numbers same

end Cells

section Rows

variable {width : Nat} {margin : String} {cells : List String}

def gridRow (width : Nat) (margin : String) (cells : List String) : List Char :=
  (padRight 6 margin).toList ++ (cells.map fun cell => (centre width cell).toList).flatten

theorem toList_gridLine (width : Nat) (margin : String) (cells : List String) :
    (gridLine width margin cells).toList = gridRow width margin cells ++ ['\n'] := by
  simp [gridLine, gridRow, String.toList_join, List.flatMap_def, Function.comp_def]

structure Fits (width : Nat) (margin : String) (cells : List String) : Prop where
  short : margin.length ≤ 6
  narrow : ∀ cell ∈ cells, cell.length ≤ width
  plainMargin : '\n' ∉ margin.toList
  plainCell : ∀ cell ∈ cells, '\n' ∉ cell.toList

namespace Fits

theorem length_margin (fits : Fits width margin cells) : (padRight 6 margin).toList.length = 6 := by
  have short := fits.short
  rw [String.length_toList, length_padRight]
  omega

theorem length_fields (fits : Fits width margin cells) :
    ∀ field ∈ cells.map fun cell => (centre width cell).toList, field.length = width := by
  intro field member
  obtain ⟨cell, listed, rfl⟩ := List.mem_map.1 member
  have narrow := fits.narrow cell listed
  rw [String.length_toList, length_centre]
  omega

theorem length_gridRow (fits : Fits width margin cells) :
    (gridRow width margin cells).length = 6 + width * cells.length := by
  rw [gridRow, List.length_append, fits.length_margin, length_flatten fits.length_fields,
    List.length_map]

theorem field_gridRow (fits : Fits width margin cells) (c : Nat) :
    field width c (gridRow width margin cells) =
      (cells.map fun cell => (centre width cell).toList).getD c [] := by
  rw [field, gridRow, ← List.drop_drop, List.drop_left' fits.length_margin,
    drop_take_flatten fits.length_fields]

theorem clean (fits : Fits width margin cells) : '\n' ∉ gridRow width margin cells := by
  have start : '\n' ∉ (padRight 6 margin).toList := by
    simp [padRight, spaces, fits.plainMargin]
  intro member
  rcases List.mem_append.1 member with left | right
  · exact start left
  · obtain ⟨field, listed, inside⟩ := List.mem_flatten.1 right
    obtain ⟨cell, known, rfl⟩ := List.mem_map.1 listed
    simp [centre, spaces, fits.plainCell cell known] at inside

end Fits

end Rows

namespace Parser

variable {τ υ : Type} {parser : Parser τ υ} {headers : List String}

def gridLines (parser : Parser τ υ) (headers : List String) : List (List Char) :=
  gridRow (cellWidth headers) "" headers ::
    (List.range parser.table.stateCount).map fun state =>
      gridRow (cellWidth headers) (toString state) (parser.cells state)

theorem toList_grid (parser : Parser τ υ) (headers : List String) :
    (parser.grid headers).toList = endLines (parser.gridLines headers) := by
  simp [grid, gridLines, endLines, String.toList_join, toList_gridLine, List.flatMap_map]

theorem columns_length (parser : Parser τ υ) :
    parser.columns.length = parser.table.terminalCount + parser.rules.nonterminalCount := by
  simp [columns]

/-- A text that shows a table: a line of headers and a line for each state, all of one length, and
in the field of each symbol the action there. -/
structure Shows (parser : Parser τ υ) (width : Nat) (text : String) (lines : List (List Char)) :
    Prop where
  text : text.toList = endLines lines
  clean : ∀ line ∈ lines, '\n' ∉ line
  count : lines.length = parser.table.stateCount + 1
  length : ∀ line ∈ lines, line.length =
    6 + width * (parser.table.terminalCount + parser.rules.nonterminalCount)
  shown {s c : Nat} {line : List Char} {symbol : Symbol Nat} : lines[s + 1]? = some line →
    parser.columns[c]? = some symbol →
      trimmed (field width c line) = (cellText (parser.table.action s symbol)).toList

/-- A parser with fewer than a hundred thousand states and productions, and with headers without
line feeds. -/
structure Tabular [Spelling τ] (parser : Parser τ υ) (headers : List String) : Prop where
  printed : parser.headers? = some headers
  plain : ∀ header ∈ headers, '\n' ∉ header.toList
  states : parser.table.stateCount < 100000
  productions : parser.rules.productions.size < 100000

theorem Tabular.headers_length [Spelling τ] (tabular : parser.Tabular headers) :
    headers.length = parser.columns.length :=
  (mapM_eq_some_iff.1 tabular.printed).length_eq.symm

theorem Tabular.fits [Spelling τ] (tabular : parser.Tabular headers) :
    Fits (cellWidth headers) "" headers := by
  constructor
  · decide
  · exact fun header member => Nat.le_of_lt (length_lt_cellWidth member)
  · decide
  · exact tabular.plain

theorem Tabular.tableText_eq [Spelling τ] (tabular : parser.Tabular headers) :
    parser.tableText = if cellWidth headers ≤ maxCellWidth then .ok (parser.grid headers)
      else .error (.tooWide (cellWidth headers)) := by
  unfold tableText
  rw [tabular.printed]

variable {υ' : Type} {other : Parser τ υ'} {text : String} {width width' : Nat}
  {lines lines' : List (List Char)}

theorem Shows.lines_eq (shows : parser.Shows width text lines)
    (shows' : other.Shows width' text lines') : lines' = lines :=
  endLines_injective shows'.clean shows.clean (shows'.text.symm.trans shows.text)

theorem Shows.stateCount_eq (shows : parser.Shows width text lines)
    (shows' : other.Shows width' text lines') :
    other.table.stateCount = parser.table.stateCount := by
  have count := shows.count
  rw [← shows.lines_eq shows', shows'.count] at count
  omega

theorem Shows.action_eq (shows : parser.Shows width text lines)
    (shows' : other.Shows width' text lines') (columns : other.columns = parser.columns) {s : Nat}
    {symbol : Symbol Nat} (inside : s < parser.table.stateCount)
    (listed : symbol ∈ parser.columns) :
    other.table.action s symbol = parser.table.action s symbol := by
  obtain ⟨c, column⟩ := List.mem_iff_getElem?.1 listed
  obtain rfl := shows.lines_eq shows'
  have bound : s + 1 < lines'.length := by
    rw [shows.count]
    omega
  have found : lines'[s + 1]? = some lines'[s + 1] := List.getElem?_eq_getElem bound
  -- the length of a line tells the width of its fields
  obtain rfl : width' = width := by
    have length := shows.length _ (List.getElem_mem bound)
    rw [shows'.length _ (List.getElem_mem bound), ← columns_length, ← columns_length,
      columns] at length
    have some : 0 < parser.columns.length := List.length_pos_of_mem listed
    exact Nat.eq_of_mul_eq_mul_right some (by omega)
  have cell := shows'.shown found (by rwa [columns])
  rw [shows.shown found column, String.toList_inj] at cell
  exact (cellText_injective cell).symm

variable [Fingerprint τ] {eof : τ}

theorem Built.located (built : parser.Built eof) {s : Nat} {symbol : Symbol Nat} {action : Action}
    (found : parser.table.action s symbol = some action) :
    s < parser.table.stateCount ∧ symbol ∈ parser.columns ∧
      parser.rules.ActionInBounds parser.automaton action := by
  have tabulates := built.machinery.tabulates
  have demanded := tabulates.action.1 found
  obtain ⟨map, stored⟩ := built.machinery.collects.demanded_source demanded
  obtain ⟨known, inBounds⟩ :=
    built.machinery.collects.demanded_inBounds built.machinery.proper demanded
  refine ⟨?_, ?_, inBounds⟩
  · rw [tabulates.stateCount]
    exact (Array.getElem?_eq_some_iff.1 stored).1
  · unfold columns
    rw [tabulates.terminalCount]
    cases symbol with
    | terminal t =>
      have inside : t < parser.rules.terminalCount := known
      simpa using inside
    | nonterminal n =>
      have inside : n < parser.rules.nonterminalCount := known
      simpa using inside

theorem Built.action_eq {eof' : τ} (built : parser.Built eof) (built' : other.Built eof')
    (shows : parser.Shows width text lines) (shows' : other.Shows width' text lines')
    (columns : other.columns = parser.columns) (s : Nat) (symbol : Symbol Nat) :
    other.table.action s symbol = parser.table.action s symbol := by
  by_cases located : s < parser.table.stateCount ∧ symbol ∈ parser.columns
  · exact shows.action_eq shows' columns located.1 located.2
  · have none : parser.table.action s symbol = none := by
      apply Option.eq_none_iff_forall_not_mem.2
      intro action found
      obtain ⟨inside, listed, _⟩ := built.located found
      exact located ⟨inside, listed⟩
    have none' : other.table.action s symbol = Option.none := by
      apply Option.eq_none_iff_forall_not_mem.2
      intro action found
      obtain ⟨inside, listed, _⟩ := built'.located found
      rw [shows.stateCount_eq shows'] at inside
      exact located ⟨inside, columns ▸ listed⟩
    rw [none, none']

variable [Spelling τ]

theorem Built.short (built : parser.Built eof) (tabular : parser.Tabular headers) {s : Nat}
    {symbol : Symbol Nat} {action : Action}
    (found : parser.table.action s symbol = some action) : action.Short := by
  have states := tabular.states
  have productions := tabular.productions
  have inBounds := (built.located found).2.2
  rw [built.machinery.tabulates.stateCount] at states
  cases action with
  | shift state => exact Nat.lt_trans inBounds states
  | goto state => exact Nat.lt_trans inBounds states
  | reduce production => exact Nat.lt_trans inBounds productions
  | accept => trivial

theorem Built.cells_fit (built : parser.Built eof) (tabular : parser.Tabular headers) (s : Nat) :
    ∀ cell ∈ parser.cells s, cell.length ≤ cellWidth headers := by
  intro cell member
  obtain ⟨symbol, _, rfl⟩ := List.mem_map.1 member
  have wide := six_le_cellWidth headers
  have few : (cellText (parser.table.action s symbol)).length ≤ 6 :=
    length_cellText fun _ found => built.short tabular found
  omega

theorem Built.fits (built : parser.Built eof) (tabular : parser.Tabular headers) {s : Nat}
    (inside : s < parser.table.stateCount) :
    Fits (cellWidth headers) (toString s) (parser.cells s) := by
  constructor
  · have few := length_toString (Nat.lt_trans inside tabular.states)
    omega
  · exact built.cells_fit tabular s
  · exact fun member => (solid_toString s _ member).2 rfl
  · intro cell member feed
    obtain ⟨symbol, _, rfl⟩ := List.mem_map.1 member
    exact (solid_cellText _ _ feed).2 rfl

theorem Built.gridLines_fit (built : parser.Built eof) (tabular : parser.Tabular headers) :
    ∀ line ∈ parser.gridLines headers, ∃ margin cells,
      line = gridRow (cellWidth headers) margin cells ∧
        cells.length = parser.columns.length ∧ Fits (cellWidth headers) margin cells := by
  intro line member
  rcases List.mem_cons.1 member with rfl | row
  · exact ⟨"", headers, rfl, tabular.headers_length, tabular.fits⟩
  · obtain ⟨s, listed, rfl⟩ := List.mem_map.1 row
    exact ⟨_, _, rfl, by simp [cells], built.fits tabular (List.mem_range.1 listed)⟩

theorem Built.shows (built : parser.Built eof) (tabular : parser.Tabular headers) :
    parser.Shows (cellWidth headers) (parser.grid headers) (parser.gridLines headers) := by
  constructor
  · exact parser.toList_grid headers
  · intro line member
    obtain ⟨margin, cells, rfl, _, fits⟩ := built.gridLines_fit tabular line member
    exact fits.clean
  · simp [gridLines]
  · intro line member
    obtain ⟨margin, cells, rfl, count, fits⟩ := built.gridLines_fit tabular line member
    rw [fits.length_gridRow, count, columns_length]
  · intro s c line symbol found column
    have inside : s < parser.table.stateCount := by
      have bound := (List.getElem?_eq_some_iff.1 found).1
      simp only [gridLines, List.length_cons, List.length_map, List.length_range] at bound
      omega
    obtain rfl : gridRow (cellWidth headers) (toString s) (parser.cells s) = line := by
      simpa [gridLines, inside] using found
    rw [(built.fits tabular inside).field_gridRow, List.getD_eq_getElem?_getD, List.getElem?_map,
      cells, List.getElem?_map, column]
    apply trimmed_centre
    exact fun member => (solid_cellText _ _ member).1 rfl

end Parser

variable {τ υ : Type} [DecidableEq τ] [Fingerprint τ] [Spelling τ]

/-- Where its fields are not too wide to be set, the grid shows the table of the parser, and with it
that of every parser with the same columns and the same grid. -/
theorem tableText_faithful {eof : τ} {calls : List (Registration τ υ)}
    {host : Host} {strategy : Strategy} {parser : Parser τ υ} {headers : List String}
    (built : (Grammar.assemble eof calls).build host strategy = .ok parser)
    (tabular : parser.Tabular headers) :
    (maxCellWidth < cellWidth headers →
      parser.tableText = .error (.tooWide (cellWidth headers))) ∧
    (cellWidth headers ≤ maxCellWidth → ∃ text lines,
      parser.tableText = .ok text ∧ parser.Shows (cellWidth headers) text lines ∧
        ∀ {υ' : Type} {eof' : τ} {calls' : List (Registration τ υ')}
          {host' : Host} {strategy' : Strategy} {other : Parser τ υ'} {headers' : List String},
          (Grammar.assemble eof' calls').build host' strategy' = .ok other →
            other.Tabular headers' → other.columns = parser.columns →
              other.tableText = .ok text → ∀ s symbol,
                other.table.action s symbol = parser.table.action s symbol) := by
  obtain ⟨_, _, sound⟩ := Parser.Built.of_assemble built
  refine ⟨?_, ?_⟩
  · intro wide
    rw [tabular.tableText_eq, if_neg (Nat.not_le_of_lt wide)]
  · intro fits
    refine ⟨parser.grid headers, parser.gridLines headers, ?_, sound.shows tabular, ?_⟩
    · rw [tabular.tableText_eq, if_pos fits]
    · intro υ' eof' calls' host' strategy' other headers' built' tabular' columns same s symbol
      obtain ⟨_, _, sound'⟩ := Parser.Built.of_assemble built'
      have shows' := sound'.shows tabular'
      rw [tabular'.tableText_eq] at same
      split at same
      · rw [Except.ok.inj same] at shows'
        exact sound.action_eq sound' (sound.shows tabular) shows' columns s symbol
      · contradiction

theorem tableText_faithful_nested : ∃ parser headers,
    (Grammar.assemble "$" nested).build tasks .sequential = .ok parser ∧
    parser.table.stateCount = 8 ∧ parser.Tabular headers ∧ cellWidth headers = 7 ∧
    ∃ text lines, parser.tableText = .ok text ∧ parser.Shows 7 text lines ∧
      ∀ {υ' : Type} {eof' : String} {calls' : List (Registration String υ')}
        {host' : Host} {strategy' : Strategy} {other : Parser String υ'} {headers' : List String},
        (Grammar.assemble eof' calls').build host' strategy' = .ok other →
          other.Tabular headers' → other.columns = parser.columns →
            other.tableText = .ok text → ∀ s symbol,
              other.table.action s symbol = parser.table.action s symbol := by
  obtain ⟨parser, built, printed, states, productions⟩ : ∃ parser,
      (Grammar.assemble "$" nested).build tasks .sequential = .ok parser ∧
      parser.headers? = some ["\"$\"", "\"a\"", "\"b\"", "S", "<goal>"] ∧
      parser.table.stateCount = 8 ∧ parser.rules.productions.size = 3 :=
    exists_ok (by decide +kernel)
  have tabular : parser.Tabular ["\"$\"", "\"a\"", "\"b\"", "S", "<goal>"] :=
    ⟨printed, by decide, by omega, by omega⟩
  have width : cellWidth ["\"$\"", "\"a\"", "\"b\"", "S", "<goal>"] = 7 := by decide +kernel
  have shown := (tableText_faithful built tabular).2
  rw [width] at shown
  exact ⟨parser, _, built, states, tabular, width, shown (by decide)⟩

def named (name : String) : List (Registration String Nat) :=
  [.nonterminal name, .production 0 [] fun _ => 0]

theorem named_tabular {name : String} {parser : Parser String Nat}
    (built : (Grammar.assemble "$" (named name)).build tasks .sequential = .ok parser)
    (plain : '\n' ∉ name.toList) (states : parser.table.stateCount < 100000)
    (terminals : parser.table.terminalCount = 1) :
    parser.Tabular ["\"$\"", name, "<goal>"] := by
  obtain ⟨start, origin, _⟩ := Parser.Built.of_assemble built
  have names : parser.rules.names = #[name, "<goal>"] := by rw [origin.rules]; rfl
  have productions : parser.rules.productions.size = 2 := by rw [origin.rules]; rfl
  have columns : parser.columns = [.terminal 0, .nonterminal 0, .nonterminal 1] := by
    unfold Parser.columns
    rw [terminals, Rules.nonterminalCount, names]
    rfl
  have eof : parser.lexicon.get? 0 = some "$" := by rw [origin.lexicon]; rfl
  have quoted : spelling "$" = "\"$\"" := by decide +kernel
  constructor
  · simp [Parser.headers?, columns, Parser.printer, names, eof, quoted, Printer.symbol?,
      Printer.terminal?, Printer.nonterminal?]
  · simpa using plain
  · exact states
  · omega

theorem utf8Len_replicate (n : Nat) : String.utf8Len (List.replicate n 'a') = n := by
  induction n with
  | zero => rfl
  | succ n ih =>
    rw [List.replicate_succ, String.utf8Len_cons, ih]
    rfl

/-- A name of 65535 letters makes fields that are one character too wide. -/
theorem tableText_of_long_name : ∃ parser,
    (Grammar.assemble "$" (named (String.ofList (List.replicate 65535 'a')))).build tasks
      .sequential = .ok parser ∧
    parser.table.stateCount = 2 ∧
    parser.Tabular ["\"$\"", String.ofList (List.replicate 65535 'a'), "<goal>"] ∧
    parser.tableText = .error (.tooWide 65536) := by
  obtain ⟨parser, built, states, terminals⟩ : ∃ parser,
      (Grammar.assemble "$" (named (String.ofList (List.replicate 65535 'a')))).build tasks
        .sequential = .ok parser ∧ parser.table.stateCount = 2 ∧ parser.table.terminalCount = 1 :=
    exists_ok (by decide +kernel)
  have plain : '\n' ∉ (String.ofList (List.replicate 65535 'a')).toList := by
    rw [String.toList_ofList, List.mem_replicate]
    rintro ⟨_, same⟩
    contradiction
  have tabular := named_tabular built plain (by omega) terminals
  have size : (String.ofList (List.replicate 65535 'a')).utf8ByteSize = 65535 := by
    rw [String.utf8ByteSize_ofList, utf8Len_replicate]
  have width : cellWidth ["\"$\"", String.ofList (List.replicate 65535 'a'), "<goal>"] = 65536 := by
    rw [cellWidth, List.map_cons, List.map_cons, size]
    rfl
  refine ⟨parser, built, states, tabular, ?_⟩
  rw [tabular.tableText_eq, width]
  rfl

end CanonicalLR
