import Mathlib
import PinnedTree.Proofs.Terminal.Columns
import PinnedTree.Terminal.TextTable

namespace PinnedTree.TextTable

open Terminal (shownColumns truncate ellipsis isControl Lone Shown columns columnsAfter)

variable {table : TextTable} {terminal : Terminal} {headers : List String} {rows : List (List String)}
  {natural widths : List Nat} {row : List String} {i j width excess : Nat}

def lineColumns (widths : List Nat) : Nat := 3 + (widths.map (· + 3)).sum

theorem lineColumns_eq (widths : List Nat) :
    lineColumns widths = frameColumns widths.length + widths.sum := by
  unfold lineColumns frameColumns
  induction widths with
  | nil => rfl
  | cons width rest ih =>
    simp only [List.map_cons, List.sum_cons, List.length_cons]
    omega

theorem getElem?_widest (filled : widths ≠ []) :
    widths[widest widths]? = some (widths.foldl max 0) := by
  obtain ⟨most, top⟩ : ∃ most, widths.max? = some most :=
    Option.isSome_iff_exists.mp (List.isSome_max?_of_ne_nil filled)
  have same : widths.foldl max 0 = most := by simp [List.foldl_max, top]
  obtain ⟨k, bound, here⟩ := List.getElem_of_mem (List.max?_mem top)
  have places : ((List.range widths.length).filter fun i =>
      widths[i]? = some (widths.foldl max 0)) ≠ [] :=
    List.ne_nil_of_mem (List.mem_filter.mpr ⟨List.mem_range.mpr bound, by simp [bound, here, same]⟩)
  have last := List.mem_filter.mp (List.getLast_mem places)
  rw [widest, List.getLast?_eq_some_getLast places, Option.getD_some]
  simpa using last.2

theorem le_widest (member : width ∈ widths) : width ≤ widths.getD (widest widths) 0 := by
  rw [List.getD_eq_getElem?_getD, getElem?_widest (List.ne_nil_of_mem member), Option.getD_some,
    List.foldl_max, Nat.zero_max]
  exact List.le_max?_getD_of_mem member

theorem getD_le_widest (widths : List Nat) (j : Nat) :
    widths.getD j 0 ≤ widths.getD (widest widths) 0 := by
  by_cases bound : j < widths.length
  · exact le_widest (by simp [List.getD_eq_getElem?_getD, bound])
  · simp [List.getD_eq_getElem?_getD, bound]

theorem lt_length_of_getD (wide : 0 < widths.getD i 0) : i < widths.length := by
  by_contra beyond
  simp [List.getD_eq_getElem?_getD, beyond] at wide

theorem getD_set (bound : i < widths.length) :
    (widths.set i width).getD j 0 = if i = j then width else widths.getD j 0 := by
  simp only [List.getD_eq_getElem?_getD, List.getElem?_set, bound, if_true]
  split <;> rfl

theorem sum_set (wide : 0 < widths.getD i 0) :
    (widths.set i (widths.getD i 0 - 1)).sum + 1 = widths.sum := by
  have bound := lt_length_of_getD wide
  induction widths generalizing i with
  | nil => cases bound
  | cons first rest ih =>
    cases i with
    | zero =>
      simp only [List.getD_cons_zero, List.set_cons_zero, List.sum_cons] at wide ⊢
      omega
    | succ i =>
      simp only [List.getD_cons_succ, List.set_cons_succ, List.sum_cons, List.length_cons] at wide bound ⊢
      have later := ih wide (by omega)
      omega

/-- Widths to which columns have been narrowed: those that gave up room still have so much, and no other
column has more than one column more. -/
structure Levelled (natural widths : List Nat) : Prop where
  length : widths.length = natural.length
  within : ∀ i, widths.getD i 0 ≤ natural.getD i 0
  least : ∀ i, widths.getD i 0 < natural.getD i 0 → minColumn ≤ widths.getD i 0
  level : ∀ i, widths.getD i 0 < natural.getD i 0 → ∀ j, widths.getD j 0 ≤ widths.getD i 0 + 1

namespace Levelled

theorem refl (natural : List Nat) : Levelled natural natural :=
  ⟨rfl, fun _ => le_rfl, fun _ less => absurd less (Nat.lt_irrefl _),
    fun _ less => absurd less (Nat.lt_irrefl _)⟩

theorem step (levelled : Levelled natural widths)
    (wide : minColumn < widths.getD (widest widths) 0) :
    Levelled natural (widths.set (widest widths) (widths.getD (widest widths) 0 - 1)) := by
  have bound := lt_length_of_getD (Nat.zero_lt_of_lt wide)
  have set : ∀ j, (widths.set (widest widths) (widths.getD (widest widths) 0 - 1)).getD j 0
      = if widest widths = j then widths.getD (widest widths) 0 - 1 else widths.getD j 0 :=
    fun _ => getD_set bound
  have less : ∀ j, (widths.set (widest widths) (widths.getD (widest widths) 0 - 1)).getD j 0
      ≤ widths.getD j 0 := by
    intro j
    rw [set]
    split
    · rename_i same
      exact same ▸ Nat.sub_le _ _
    · exact le_rfl
  refine ⟨by simpa using levelled.length, fun j => (less j).trans (levelled.within j), ?_, ?_⟩
  · intro j narrower
    rw [set] at narrower ⊢
    split
    · omega
    · rename_i other
      rw [if_neg other] at narrower
      exact levelled.least j narrower
  · intro j narrower k
    refine (less k).trans ?_
    rw [set] at narrower ⊢
    split
    · -- the column that gave up room was a widest one
      exact (getD_le_widest widths k).trans (by omega)
    · rename_i other
      rw [if_neg other] at narrower
      exact levelled.level j narrower k

theorem narrowed (levelled : Levelled natural widths) (excess : Nat) :
    Levelled natural (narrowed excess widths) := by
  induction excess generalizing widths with
  | zero => exact levelled
  | succ excess ih =>
    rw [TextTable.narrowed]
    split
    · exact levelled
    · rename_i wide
      exact ih (levelled.step (by omega))

theorem least_eq (levelled : Levelled natural widths) (narrow : ∀ width ∈ widths, width ≤ minColumn) :
    widths = natural.map (min minColumn) := by
  refine List.ext_getElem (by simpa using levelled.length) fun i bound bound' => ?_
  have boundN : i < natural.length := levelled.length ▸ bound
  have within := levelled.within i
  have least := levelled.least i
  simp only [List.getD_eq_getElem?_getD, List.getElem?_eq_getElem bound, Option.getD_some,
    List.getElem?_eq_getElem boundN] at within least
  have small := narrow _ (List.getElem_mem bound)
  rw [List.getElem_map]
  omega

end Levelled

theorem le_sum_narrowed (excess : Nat) (widths : List Nat) :
    widths.sum ≤ (narrowed excess widths).sum + excess := by
  induction excess generalizing widths with
  | zero => exact le_rfl
  | succ excess ih =>
    rw [narrowed]
    split
    · omega
    · rename_i wide
      have less := sum_set (Nat.zero_lt_of_lt (Nat.lt_of_not_le wide))
      have later := ih (widths.set (widest widths) (widths.getD (widest widths) 0 - 1))
      omega

theorem sum_narrowed (excess : Nat) (widths : List Nat) :
    (narrowed excess widths).sum + excess = widths.sum ∨
      ∀ width ∈ narrowed excess widths, width ≤ minColumn := by
  induction excess generalizing widths with
  | zero => exact .inl rfl
  | succ excess ih =>
    rw [narrowed]
    split
    · rename_i narrow
      exact .inr fun width member => (le_widest member).trans narrow
    · rename_i wide
      have less := sum_set (Nat.zero_lt_of_lt (Nat.lt_of_not_le wide))
      refine (ih (widths.set (widest widths) (widths.getD (widest widths) 0 - 1))).imp_left fun sum => ?_
      omega

theorem widths_eq (table : TextTable) (terminal : Terminal) :
    table.widths terminal = narrowed (table.naturalWidths.sum
      - (terminal.width - frameColumns table.naturalWidths.length)) table.naturalWidths := by
  rw [widths, List.sum_eq_foldl]

theorem levelled_widths (table : TextTable) (terminal : Terminal) :
    Levelled table.naturalWidths (table.widths terminal) :=
  widths_eq table terminal ▸ (Levelled.refl _).narrowed _

theorem lineColumns_widths_le (table : TextTable) (terminal : Terminal) :
    lineColumns (table.widths terminal) ≤ terminal.width ∨
      ∀ width ∈ table.widths terminal, width ≤ minColumn := by
  have length := (levelled_widths table terminal).length
  rw [lineColumns_eq, length]
  rw [widths_eq]
  rcases sum_narrowed (table.naturalWidths.sum
    - (terminal.width - frameColumns table.naturalWidths.length)) table.naturalWidths with sum | narrow
  · by_cases room : frameColumns table.naturalWidths.length ≤ terminal.width
    · exact .inl (by omega)
    · refine .inr fun width member => ?_
      have part := List.single_le_sum (fun _ _ => Nat.zero_le _) width member
      omega
  · exact .inr narrow

theorem widths_of_room (room : lineColumns table.naturalWidths ≤ terminal.width) :
    table.widths terminal = table.naturalWidths := by
  rw [lineColumns_eq] at room
  have none : table.naturalWidths.sum - (terminal.width - frameColumns table.naturalWidths.length) = 0 := by
    omega
  rw [widths_eq, none, narrowed]

theorem lineColumns_widths_eq (tight : terminal.width ≤ lineColumns table.naturalWidths)
    (enough : lineColumns (table.naturalWidths.map (min minColumn)) ≤ terminal.width) :
    lineColumns (table.widths terminal) = terminal.width := by
  have levelled := levelled_widths table terminal
  have least := le_sum_narrowed (table.naturalWidths.sum
    - (terminal.width - frameColumns table.naturalWidths.length)) table.naturalWidths
  rw [← widths_eq] at least
  -- all columns being narrow is no hindrance here: the least widths fit
  have upper : lineColumns (table.widths terminal) ≤ terminal.width := by
    rcases lineColumns_widths_le table terminal with fits | narrow
    · exact fits
    · rwa [levelled.least_eq narrow]
  rw [lineColumns_eq] at tight enough upper ⊢
  rw [levelled.length] at upper ⊢
  rw [List.length_map] at enough
  omega

def column (table : TextTable) (i : Nat) : List (List Char) :=
  (table.headers[i]?.toList ++ table.rows.filterMap (·[i]?)).map oneLine

theorem length_widened (long : row.length = widths.length) :
    (widened widths row).length = widths.length := by
  simp [widened, long]

theorem length_foldl_widened (regular : ∀ row ∈ rows, row.length = widths.length) :
    (rows.foldl widened widths).length = widths.length := by
  induction rows generalizing widths with
  | nil => rfl
  | cons row rest ih =>
    have longer := length_widened (regular row (by simp))
    rw [List.foldl_cons, ih fun row member => longer ▸ regular row (by simp [member]), longer]

theorem getElem?_foldl_widened (regular : ∀ row ∈ rows, row.length = widths.length) :
    (rows.foldl widened widths)[i]? = widths[i]?.map fun width =>
      ((rows.filterMap (·[i]?)).map fun cell => shownColumns (oneLine cell)).foldl max width := by
  induction rows generalizing widths with
  | nil => simp
  | cons row rest ih =>
    have long := regular row (by simp)
    have longer := length_widened long
    rw [List.foldl_cons, ih fun row member => longer ▸ regular row (by simp [member])]
    cases here : widths[i]? with
    | none =>
      have beyond := List.getElem?_eq_none_iff.mp here
      simp [List.getElem?_eq_none_iff.mpr (longer ▸ beyond)]
    | some width =>
      have bound := (List.getElem?_eq_some_iff.mp here).1
      obtain ⟨cell, there⟩ : ∃ cell, row[i]? = some cell :=
        ⟨_, List.getElem?_eq_getElem (long ▸ bound)⟩
      simp [widened, List.getElem?_zipWith, here, there]

theorem length_naturalWidths (regular : ∀ row ∈ table.rows, row.length = table.headers.length) :
    table.naturalWidths.length = table.headers.length := by
  rw [naturalWidths, length_foldl_widened (by simpa using regular), List.length_map]

theorem oneLine_of_shown {cell : String} (shown : Shown cell.toList) : oneLine cell = cell.toList := by
  refine (List.map_congr_left fun c member => ?_).trans (List.map_id _)
  have seen := shown c member
  refine if_neg ?_
  simp only [Bool.or_eq_true, decide_eq_true_eq]
  rintro ((rfl | rfl) | rfl) <;> exact absurd seen (by decide)

theorem getElem?_naturalWidths (regular : ∀ row ∈ table.rows, row.length = table.headers.length)
    (named : ∀ header ∈ table.headers, Shown header.toList) (bound : i < table.headers.length) :
    table.naturalWidths[i]? = ((table.column i).map shownColumns).max? := by
  have header := oneLine_of_shown (named _ (List.getElem_mem bound))
  rw [naturalWidths, getElem?_foldl_widened (by simpa using regular), List.getElem?_map, column,
    List.getElem?_eq_getElem bound]
  simp only [Option.map_some, Option.toList_some, List.singleton_append, List.map_cons, List.map_map,
    List.max?_cons', header]
  rfl

def frame : List Char := [' ', '─', '│', '┌', '┬', '┐', '├', '┼', '┤', '└', '┴', '┘']

theorem lone_of_frame : ∀ c ∈ frame, Lone c :=
  List.forall_iff_forall_mem.mp (by decide +kernel)

structure Fits (cell : String) (width : Nat) : Prop where
  shown : Shown (oneLine cell)
  within : shownColumns (truncate width (oneLine cell)) ≤ width

theorem Fits.shown_shownCell {cell : String} (fits : Fits cell width) : Shown (shownCell id cell width) := by
  intro c member
  simp only [shownCell, id, String.toList_ofList, List.cons_append, List.mem_cons, List.mem_append,
    List.mem_replicate, List.not_mem_nil, or_false] at member
  rcases member with rfl | (kept | ⟨-, rfl⟩) | rfl | rfl
  · decide
  · exact fits.shown.truncate_shown width c kept
  · decide
  · decide
  · decide

theorem Fits.columnsAfter_shownCell {cell : String} (fits : Fits cell width) (rest : List Char) :
    columnsAfter .free (shownCell id cell width ++ rest) = width + 3 + columnsAfter .free rest := by
  have within := fits.within
  have counted := (fits.shown.truncate_shown width).shownColumns
  have frames : ∀ c ∈ List.replicate (width - shownColumns (truncate width (oneLine cell))) ' '
      ++ [' ', '│'], Lone c := by
    intro c member
    simp only [List.mem_append, List.mem_replicate, List.mem_cons, List.not_mem_nil, or_false] at member
    refine lone_of_frame c ?_
    rcases member with ⟨-, rfl⟩ | rfl | rfl <;> decide
  simp only [shownCell, id, String.toList_ofList]
  rw [List.cons_append, List.cons_append, List.cons_append,
    Terminal.columnsAfter_lone (lone_of_frame _ (by decide)), List.append_assoc, List.append_assoc,
    ← List.append_assoc (List.replicate _ _), Terminal.columns_framed frames (by simp)]
  rw [counted, columns] at within ⊢
  simp only [List.length_append, List.length_replicate, List.length_cons, List.length_nil]
  omega

def drawnRow (widths : List Nat) (cells : List String) : List Char :=
  [' ', ' ', '│'] ++ (List.zipWith (shownCell id) cells widths).flatten

def drawnBorder (widths : List Nat) (left between right : Char) : List Char :=
  [' ', ' ', left] ++ Text.joined between (widths.map fun width => List.replicate (width + 2) '─') ++ [right]

theorem drawnRow_fits (fits : List.Forall₂ Fits row widths) :
    Shown (drawnRow widths row) ∧ shownColumns (drawnRow widths row) = lineColumns widths := by
  have cells : ∀ text ∈ List.zipWith (shownCell id) row widths, Shown text := by
    induction fits with
    | nil => simp
    | cons first _ ih => simpa using ⟨first.shown_shownCell, ih⟩
  have sum : columnsAfter .free (List.zipWith (shownCell id) row widths).flatten
      = (widths.map (· + 3)).sum := by
    clear cells
    induction fits with
    | nil => rfl
    | cons first _ ih =>
      rw [List.zipWith_cons_cons, List.flatten_cons, first.columnsAfter_shownCell, ih, List.map_cons,
        List.sum_cons]
  have among : [' ', ' ', '│'] ⊆ frame := by decide
  have edge : ∀ c ∈ [' ', ' ', '│'], Lone c := fun c member => lone_of_frame c (among member)
  have shown : Shown (drawnRow widths row) := by
    intro c member
    rcases List.mem_append.mp member with outer | cell
    · exact (edge c outer).shown
    · obtain ⟨text, listed, inside⟩ := List.mem_flatten.mp cell
      exact cells text listed c inside
  refine ⟨shown, ?_⟩
  rw [shown.shownColumns, drawnRow, columns, Terminal.columnsAfter_frame edge, sum]
  rfl

theorem mem_joined {sep c : Char} {pieces : List (List Char)} (member : c ∈ Text.joined sep pieces) :
    c = sep ∨ ∃ piece ∈ pieces, c ∈ piece := by
  induction pieces with
  | nil => cases member
  | cons piece rest ih =>
    cases rest with
    | nil => exact .inr ⟨piece, by simp, member⟩
    | cons next others =>
      rcases List.mem_append.mp member with inside | later
      · exact .inr ⟨piece, by simp, inside⟩
      · rcases List.mem_cons.mp later with rfl | later
        · exact .inl rfl
        · exact (ih later).imp_right fun ⟨other, listed, inside⟩ =>
            ⟨other, List.mem_cons_of_mem _ listed, inside⟩

theorem length_joined_segments (sep : Char) (filled : widths ≠ []) :
    (Text.joined sep (widths.map fun width => List.replicate (width + 2) '─')).length + 1
      = (widths.map (· + 3)).sum := by
  induction widths with
  | nil => exact absurd rfl filled
  | cons width rest ih =>
    cases rest with
    | nil => simp [Text.joined]
    | cons next others =>
      have later := ih (by simp)
      simp only [List.map_cons, Text.joined, List.length_append, List.length_cons, List.sum_cons,
        List.length_replicate] at later ⊢
      omega

theorem drawnBorder_fits {left between right : Char} (lone : Lone left ∧ Lone between ∧ Lone right)
    (filled : widths ≠ []) : Shown (drawnBorder widths left between right) ∧
      shownColumns (drawnBorder widths left between right) = lineColumns widths := by
  have frames : ∀ c ∈ drawnBorder widths left between right, Lone c := by
    intro c member
    simp only [drawnBorder, List.mem_append, List.mem_cons, List.not_mem_nil, or_false] at member
    rcases member with ((rfl | rfl | rfl) | inside) | rfl
    · exact lone_of_frame _ (by decide)
    · exact lone_of_frame _ (by decide)
    · exact lone.1
    · rcases mem_joined inside with rfl | ⟨segment, listed, inside⟩
      · exact lone.2.1
      · obtain ⟨width, -, rfl⟩ := List.mem_map.mp listed
        obtain rfl := List.eq_of_mem_replicate inside
        exact lone_of_frame _ (by decide)
    · exact lone.2.2
  have shown : Shown (drawnBorder widths left between right) := fun c member => (frames c member).shown
  refine ⟨shown, ?_⟩
  have segments := length_joined_segments between filled
  have counted := Terminal.columnsAfter_frame frames []
  rw [List.append_nil] at counted
  rw [shown.shownColumns, columns, counted, lineColumns]
  simp only [drawnBorder, List.length_append, List.length_cons, List.length_nil, columnsAfter]
  omega

def drawn (table : TextTable) (widths : List Nat) : List (List Char) :=
  drawnBorder widths '┌' '┬' '┐' :: drawnRow widths table.headers :: drawnBorder widths '├' '┼' '┤'
    :: (table.rows.map (drawnRow widths) ++ [drawnBorder widths '└' '┴' '┘'])

theorem toList_render (filled : table.headers ≠ []) (plain : terminal.styled = false) :
    (table.render terminal).toList
      = ((table.drawn (table.widths terminal)).map (· ++ ['\n'])).flatten := by
  have bold : terminal.paint .bold = id := funext fun text => Terminal.paint_plain plain .bold text
  have isEmpty : table.headers.isEmpty = false := by simpa using filled
  have each : table.rows.flatMap (rowLine id (table.widths terminal))
      = (table.rows.map fun row => drawnRow (table.widths terminal) row ++ ['\n']).flatten := rfl
  simp only [render, isEmpty, bold, each]
  simp [drawn, border, rowLine, drawnBorder, drawnRow, Function.comp_def]

theorem fields_lines {lines : List (List Char)} (shown : ∀ line ∈ lines, Shown line) :
    Text.fields '\n' (lines.map (· ++ ['\n'])).flatten = lines ++ [[]] := by
  induction lines with
  | nil => rfl
  | cons line rest ih =>
    have absent : '\n' ∉ line := fun member =>
      absurd (shown line (by simp) '\n' member) (by decide)
    rw [List.map_cons, List.flatten_cons, List.append_assoc, List.singleton_append,
      Text.fields_append absent, ih fun line member => shown line (by simp [member]), List.cons_append]

def Printable (cell : String) : Prop :=
  ∀ c ∈ cell.toList, isControl c = true → c ∈ ['\n', '\r', '\t']

instance (cell : String) : Decidable (Printable cell) :=
  List.decidableBAll (fun c => isControl c = true → c ∈ ['\n', '\r', '\t']) cell.toList

theorem Printable.shown_oneLine {cell : String} (printable : Printable cell) : Shown (oneLine cell) := by
  intro c member
  obtain ⟨original, inside, rfl⟩ := List.mem_map.mp member
  by_cases blank : original ∈ ['\n', '\r', '\t']
  · have replaced : (original = '\n' || original = '\r' || original = '\t') = true := by
      simpa [or_assoc] using blank
    rw [if_pos replaced]
    decide
  · have stays : ¬ (original = '\n' || original = '\r' || original = '\t') = true := by
      simpa [or_assoc] using blank
    rw [if_neg stays]
    simpa using fun control => blank (printable original inside control)

theorem fits_row (regular : ∀ row ∈ table.rows, row.length = table.headers.length)
    (named : ∀ header ∈ table.headers, Shown header.toList)
    (printable : ∀ row ∈ table.rows, ∀ cell ∈ row, Printable cell)
    (cut : ∀ cell ∈ table.headers ++ table.rows.flatten, ∀ width, ellipsis.length ≤ width →
      shownColumns (truncate width (oneLine cell)) ≤ width)
    (listed : row = table.headers ∨ row ∈ table.rows) :
    List.Forall₂ Fits row (table.widths terminal) := by
  have levelled := levelled_widths table terminal
  have long : row.length = table.headers.length := by
    rcases listed with rfl | listed
    · rfl
    · exact regular row listed
  have length := (long.trans (length_naturalWidths regular).symm).trans levelled.length.symm
  refine List.forall₂_iff_get.mpr ⟨length, fun i boundR boundW => ?_⟩
  have boundH : i < table.headers.length := long ▸ boundR
  have boundN : i < table.naturalWidths.length := levelled.length ▸ boundW
  obtain ⟨inside, inColumn, shown⟩ : row[i] ∈ table.headers ++ table.rows.flatten ∧
      oneLine row[i] ∈ table.column i ∧ Shown (oneLine row[i]) := by
    rcases listed with rfl | listed
    · refine ⟨by simp, List.mem_map_of_mem (by simp [boundH]), ?_⟩
      have header := named _ (List.getElem_mem boundH)
      rwa [oneLine_of_shown header]
    · have cell := List.getElem_mem boundR
      refine ⟨by simpa using .inr ⟨row, listed, cell⟩, List.mem_map_of_mem ?_, ?_⟩
      · exact List.mem_append_right _ (List.mem_filterMap.mpr ⟨row, listed, by simp [boundR]⟩)
      · exact (printable row listed _ cell).shown_oneLine
  have natural := getElem?_naturalWidths regular named boundH
  rw [List.getElem?_eq_getElem boundN] at natural
  have room := (List.max?_eq_some_iff.mp natural.symm).2 _ (List.mem_map_of_mem inColumn)
  have within := levelled.within i
  have least := levelled.least i
  simp only [List.getD_eq_getElem?_getD, List.getElem?_eq_getElem boundW, Option.getD_some,
    List.getElem?_eq_getElem boundN] at within least
  refine ⟨shown, ?_⟩
  simp only [List.get_eq_getElem]
  rcases within.lt_or_eq with narrowed | same
  · exact cut _ inside _ ((by decide : ellipsis.length ≤ minColumn).trans (least narrowed))
  · have fits : shownColumns (oneLine row[i]) ≤ (table.widths terminal)[i] := same ▸ room
    rwa [truncate, if_pos fits]

def wideTable : TextTable :=
  .ofRows ["Id", "Path"] [["漢字漢字漢字漢字漢字", "third_party/icu"], ["left out"]]

end PinnedTree.TextTable
