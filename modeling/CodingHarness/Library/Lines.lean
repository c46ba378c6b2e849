import Mathlib.Data.List.Infix
import Mathlib.Data.List.DropRight

/-!
# Terminated lines

A file of lines over an arbitrary alphabet with one separator: every complete line ends with the
separator, and a write that was cut short leaves a torn line without one. `split` returns the complete
lines, `completePrefix` the part of the file they fill, and `exists_join_of_cut` says what a cut
leaves of a sequence of lines.
-/

namespace CodingHarness.Library.Lines

variable {α : Type}

/-- The file of a sequence of lines. -/
def join (separator : α) (lines : List (List α)) : List α := lines.flatMap fun line => line ++ [separator]

@[simp] theorem join_nil (separator : α) : join separator [] = [] := rfl

@[simp] theorem join_cons (separator : α) (line : List α) (lines : List (List α)) :
    join separator (line :: lines) = line ++ separator :: join separator lines := by
  simp [join]

@[simp] theorem join_append (separator : α) (front back : List (List α)) :
    join separator (front ++ back) = join separator front ++ join separator back := by
  simp [join]

variable [DecidableEq α]

/-- The complete lines of a file; `line` is the reversed start of the first one. -/
def splitFrom (separator : α) (line : List α) : List α → List (List α)
  | [] => []
  | symbol :: rest =>
    if symbol = separator then line.reverse :: splitFrom separator [] rest
    else splitFrom separator (symbol :: line) rest

/-- The complete lines of a file. -/
def split (separator : α) (file : List α) : List (List α) := splitFrom separator [] file

/-- The file up to and with its last separator. -/
def completePrefix (separator : α) (file : List α) : List α := file.rdropWhile fun symbol => symbol != separator

section Laws

variable {separator : α} {torn : List α}

theorem splitFrom_of_notMem {line : List α} (h : separator ∉ torn) :
    splitFrom separator line torn = [] := by
  induction torn generalizing line with
  | nil => rfl
  | cons symbol rest ih =>
    rw [splitFrom, if_neg fun heq => h (by simp [heq])]
    exact ih fun hmem => h (List.mem_cons_of_mem _ hmem)

theorem splitFrom_line {start line rest : List α} (h : separator ∉ line) :
    splitFrom separator start (line ++ separator :: rest)
      = (start.reverse ++ line) :: splitFrom separator [] rest := by
  induction line generalizing start with
  | nil => simp [splitFrom]
  | cons symbol line ih =>
    rw [List.cons_append, splitFrom, if_neg fun heq => h (by simp [heq]),
      ih fun hmem => h (List.mem_cons_of_mem _ hmem)]
    simp

variable {lines : List (List α)}

/-- The complete lines of a file of lines with a torn end. -/
theorem split_join (hlines : ∀ line ∈ lines, separator ∉ line) (htorn : separator ∉ torn):
    split separator (join separator lines ++ torn) = lines := by
  induction lines with
  | nil => exact splitFrom_of_notMem htorn
  | cons line lines ih =>
    rw [join_cons, List.append_assoc, List.cons_append, split, splitFrom_line (hlines line List.mem_cons_self)]
    exact congrArg _ (ih fun l hl => hlines l (List.mem_cons_of_mem _ hl))

/-- The complete part of a file of lines with a torn end. -/
theorem completePrefix_join (htorn : separator ∉ torn) :
    completePrefix separator (join separator lines ++ torn) = join separator lines := by
  have hdrop : torn.reverse.dropWhile (fun symbol => symbol != separator) = [] := by
    rw [List.dropWhile_eq_nil_iff]
    intro symbol hmem
    have : symbol ≠ separator := fun heq => htorn (by simpa [heq] using hmem)
    simpa using this
  rw [completePrefix, List.rdropWhile, List.reverse_append, List.dropWhile_append, hdrop]
  cases lines using List.reverseRecOn with
  | nil => simp
  | append_singleton lines line => simp

omit [DecidableEq α] in
theorem exists_join (separator : α) (file : List α) :
    ∃ lines torn, file = join separator lines ++ torn ∧ (∀ line ∈ lines, separator ∉ line) ∧ separator ∉ torn := by
  induction file with
  | nil => exact ⟨[], [], rfl, (fun line hmem => nomatch hmem), List.not_mem_nil⟩
  | cons symbol rest ih =>
    obtain ⟨lines, torn, rfl, hlines, htorn⟩ := ih
    by_cases hsymbol : symbol = separator
    · refine ⟨[] :: lines, torn, by simp [hsymbol], ?_, htorn⟩
      exact List.forall_mem_cons.2 ⟨List.not_mem_nil, hlines⟩
    have hfresh : ∀ line : List α, separator ∉ line → separator ∉ symbol :: line := fun line hline hmem =>
      (List.mem_cons.1 hmem).elim (fun heq => hsymbol heq.symm) hline
    cases lines with
    | nil => exact ⟨[], symbol :: torn, rfl, hlines, hfresh torn htorn⟩
    | cons line lines =>
      obtain ⟨hline, hlines⟩ := List.forall_mem_cons.1 hlines
      exact ⟨(symbol :: line) :: lines, torn, by simp, List.forall_mem_cons.2 ⟨hfresh line hline, hlines⟩, htorn⟩

omit [DecidableEq α] in
/-- The segments of a file are its complete lines and the torn end. -/
theorem splitOn_join [BEq α] [LawfulBEq α] (hlines : ∀ line ∈ lines, separator ∉ line) (htorn : separator ∉ torn) :
    (join separator lines ++ torn).splitOn separator = lines ++ [torn] := by
  induction lines with
  | nil => exact List.splitOn_eq_singleton htorn
  | cons line lines ih =>
    obtain ⟨hline, hlines⟩ := List.forall_mem_cons.1 hlines
    rw [join_cons, List.append_assoc, List.cons_append, List.splitOn_append_cons_self_of_not_mem hline, ih hlines]
    rfl

omit [DecidableEq α] in
/-- The first separator of a file comes after its first line. -/
theorem idxOf?_line [BEq α] [LawfulBEq α] {line : List α} (h : separator ∉ line) (rest : List α) :
    (line ++ separator :: rest).idxOf? separator = some line.length := by
  induction line with
  | nil => simp [List.idxOf?_cons]
  | cons symbol line ih =>
    have hsymbol : symbol ≠ separator := fun heq => h (by simp [heq])
    rw [List.cons_append, List.idxOf?_cons, ih fun hmem => h (List.mem_cons_of_mem _ hmem)]
    simp [hsymbol]

end Laws

end CodingHarness.Library.Lines
