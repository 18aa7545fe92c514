import Depot.Directive
import Depot.Proofs.Text.Joined

/-!
# The lines of a container file

The instructions that a container file can express (`containerFile_eq_ok_iff`) are written one
behind the other, and each takes up as many lines as its operand has (`linesOf_file`). So a file
tells the lines of its instructions and nothing else (`file_eq_file_iff`): what stands behind a line
break in an operand is a line of its own, and is read as an instruction if it starts like one
(`instructionsOf_file`). Instructions whose operands are single lines are read back as they are
(`line_breaks_decide`).
-/

namespace Depot

/-! ## Lists of lists -/

section

variable {α β : Type} {f : α → List β} {l : List α}

theorem length_le_length_flatMap (h : ∀ a ∈ l, f a ≠ []) : l.length ≤ (l.flatMap f).length := by
  induction l with
  | nil => exact Nat.le_refl 0
  | cons a rest ih =>
    rw [List.forall_mem_cons] at h
    have ha := List.length_pos_iff.2 h.1
    have hrest := ih h.2
    rw [List.flatMap_cons, List.length_append, List.length_cons]
    omega

theorem length_flatMap_eq_iff (h : ∀ a ∈ l, f a ≠ []) :
    (l.flatMap f).length = l.length ↔ ∀ a ∈ l, (f a).length = 1 := by
  induction l with
  | nil => simp
  | cons a rest ih =>
    rw [List.forall_mem_cons] at h
    have ha := List.length_pos_iff.2 h.1
    have hrest := length_le_length_flatMap h.2
    rw [List.forall_mem_cons, ← ih h.2, List.flatMap_cons, List.length_append, List.length_cons]
    omega

theorem flatMap_eq_self_iff {f : α → List α} (h : ∀ a ∈ l, f a ≠ []) :
    l.flatMap f = l ↔ ∀ a ∈ l, f a = [a] := by
  constructor
  · intro heq
    have hone := (length_flatMap_eq_iff h).1 (congrArg List.length heq)
    induction l with
    | nil => simp
    | cons a rest ih =>
      rw [List.forall_mem_cons] at h hone ⊢
      obtain ⟨b, hb⟩ := List.length_eq_one_iff.1 hone.1
      rw [List.flatMap_cons, hb, List.singleton_append] at heq
      obtain ⟨rfl, hrest⟩ := List.cons.inj heq
      exact ⟨hb, ih h.2 hrest hone.2⟩
  · intro hself
    rw [List.flatMap_congr hself, List.flatMap_singleton']

end

namespace Directive

/-! ## Instructions -/

/-- The directives that a container file can express. -/
inductive Instruction where
  | base (image : String)
  | run (command : String)
  deriving DecidableEq, Repr

namespace Instruction

/-- The directive that an instruction is. -/
def directive : Instruction → Directive
  | base image => .baseImage image
  | run command => .runCommand command

/-- What an instruction starts with. -/
def keyword : Instruction → List Char
  | base _ => ['F', 'R', 'O', 'M', ' ']
  | run _ => ['R', 'U', 'N', ' ']

/-- What comes behind the keyword. -/
def operand : Instruction → String
  | base image => image
  | run command => command

/-- The same instruction on something else. -/
def withOperand : Instruction → List Char → Instruction
  | base _, s => base (String.ofList s)
  | run _, s => run (String.ofList s)

/-- The lines that an instruction takes up in a container file. -/
def lines (i : Instruction) : List (List Char) := (i.keyword ++ i.operand.toList).splitOn '\n'

/-- The instruction that a line of a container file starts. -/
def ofLine? : List Char → Option Instruction
  | 'F' :: 'R' :: 'O' :: 'M' :: ' ' :: image => some (base (String.ofList image))
  | 'R' :: 'U' :: 'N' :: ' ' :: command => some (run (String.ofList command))
  | _ => none

/-- The instruction up to the first line break of its operand. -/
def firstLine (i : Instruction) : Instruction :=
  i.withOperand ((i.operand.toList.splitOn '\n').headD [])

/-- The instructions that start behind a line break of the operand. -/
def further (i : Instruction) : List Instruction :=
  (i.operand.toList.splitOn '\n').tail.filterMap ofLine?

/-- The operand has no line break. -/
def OneLine (i : Instruction) : Prop := '\n' ∉ i.operand.toList

instance (i : Instruction) : Decidable i.OneLine := inferInstanceAs (Decidable (_ ∉ _))

/-- What an instruction adds to a container file. -/
def written (i : Instruction) : List Char := (i.keyword ++ i.operand.toList) ++ ['\n']

variable {i : Instruction}

/-- The instructions are the directives that have a line. -/
theorem isSome_line?_iff {d : Directive} : d.line?.isSome = true ↔ ∃ i, directive i = d := by
  constructor
  · intro h
    cases d with
    | baseImage image => exact ⟨base image, rfl⟩
    | runCommand command => exact ⟨run command, rfl⟩
    | environment | addFile | exportPort => cases h
  · rintro ⟨i, rfl⟩
    cases i <;> rfl

theorem line?_directive (i : Instruction) : i.directive.line? = some (String.ofList i.written) := by
  cases i with
  | base image => exact congrArg some (String.toList_inj.1 (by simp [written, keyword, operand]))
  | run command => exact congrArg some (String.toList_inj.1 (by simp [written, keyword, operand]))

theorem newline_notMem_keyword (i : Instruction) : '\n' ∉ i.keyword := by
  cases i <;> simp [keyword]

theorem ofLine?_keyword (i : Instruction) (s : List Char) :
    ofLine? (i.keyword ++ s) = some (i.withOperand s) := by
  cases i <;> rfl

theorem operand_withOperand (i : Instruction) (s : List Char) :
    (i.withOperand s).operand = String.ofList s := by
  cases i <;> rfl

theorem withOperand_operand (i : Instruction) : i.withOperand i.operand.toList = i := by
  cases i <;> simp [withOperand, operand]

theorem lines_eq (i : Instruction) :
    i.lines = (i.operand.toList.splitOn '\n').modifyHead (i.keyword ++ ·) :=
  Text.splitOn_append_left i.newline_notMem_keyword _

theorem lines_ne_nil (i : Instruction) : i.lines ≠ [] := List.splitOn_ne_nil _ _

theorem filterMap_lines (i : Instruction) :
    i.lines.filterMap ofLine? = i.firstLine :: i.further := by
  obtain ⟨first, rest, hsplit⟩ :=
    List.exists_cons_of_ne_nil (List.splitOn_ne_nil '\n' i.operand.toList)
  rw [lines_eq, firstLine, further, hsplit, List.modifyHead_cons, List.headD_cons, List.tail_cons,
    List.filterMap_cons, ofLine?_keyword]

theorem oneLine_firstLine (i : Instruction) : i.firstLine.OneLine := by
  obtain ⟨first, rest, hsplit⟩ :=
    List.exists_cons_of_ne_nil (List.splitOn_ne_nil '\n' i.operand.toList)
  rw [OneLine, firstLine, operand_withOperand, String.toList_ofList, hsplit, List.headD_cons]
  exact Text.notMem_of_mem_splitOn (hsplit ▸ List.mem_cons_self)

theorem length_lines_eq_one_iff : i.lines.length = 1 ↔ i.OneLine := by
  rw [lines_eq, List.length_modifyHead, Text.length_splitOn, OneLine, ← List.count_eq_zero]
  omega

/-- An instruction is read back alone just when it is a single line. -/
theorem firstLine_cons_further_iff : i.firstLine :: i.further = [i] ↔ i.OneLine := by
  constructor
  · intro h
    exact (List.cons.inj h).1 ▸ i.oneLine_firstLine
  · intro h
    rw [firstLine, further, List.splitOn_eq_singleton h, List.headD_cons, withOperand_operand]
    rfl

end Instruction

open Instruction

/-! ## Container files -/

/-- The lines of a text, each of which ends with a line break. -/
def linesOf (text : String) : List (List Char) := (text.toList.splitOn '\n').dropLast

/-- The instructions of a container file, one for each line that starts one. -/
def instructionsOf (text : String) : List Instruction := (linesOf text).filterMap ofLine?

/-- The container file of instructions. -/
def file (is : List Instruction) : String := String.ofList (is.flatMap written)

variable {is js : List Instruction}

theorem emit_instructions (is : List Instruction) :
    emit (is.map directive) = (file is, .ok ()) := by
  induction is with
  | nil => rfl
  | cons i rest ih =>
    rw [List.map_cons, emit, line?_directive, ih, file, file, List.flatMap_cons,
      String.ofList_append]

theorem containerFile_instructions (is : List Instruction) :
    containerFile (is.map directive) = .ok (file is) := by
  rw [containerFile, emit_instructions]
  rfl

theorem emit_eq_ok_iff {directives : List Directive} :
    (emit directives).2 = .ok () ↔ ∃ is : List Instruction, directives = is.map directive := by
  constructor
  · intro h
    induction directives with
    | nil => exact ⟨[], rfl⟩
    | cons d rest ih =>
      rw [emit] at h
      split at h
      · cases h
      · next line hline =>
        obtain ⟨i, rfl⟩ := isSome_line?_iff.1 (by rw [hline, Option.isSome_some])
        obtain ⟨is, rfl⟩ := ih h
        exact ⟨i :: is, rfl⟩
  · rintro ⟨is, rfl⟩
    rw [emit_instructions]

/-- Every container file is one of instructions. -/
theorem containerFile_eq_ok_iff {directives : List Directive} {text : String} :
    containerFile directives = .ok text ↔
      ∃ is : List Instruction, directives = is.map directive ∧ text = file is := by
  constructor
  · intro h
    have hok : (emit directives).2 = .ok () := by
      unfold containerFile at h
      cases hemit : (emit directives).2 with
      | error e => rw [hemit] at h; cases h
      | ok u => rfl
    obtain ⟨is, rfl⟩ := emit_eq_ok_iff.1 hok
    rw [containerFile_instructions] at h
    exact ⟨is, rfl, (Except.ok.inj h).symm⟩
  · rintro ⟨is, rfl, rfl⟩
    exact containerFile_instructions is

theorem splitOn_file (is : List Instruction) :
    (file is).toList.splitOn '\n' = is.flatMap lines ++ [[]] := by
  have hwritten : is.flatMap written =
      (is.map fun i => i.keyword ++ i.operand.toList).flatMap fun text => text ++ ['\n'] := by
    rw [List.flatMap_map]
    rfl
  rw [file, String.toList_ofList, hwritten, Text.splitOn_flatMap_ended, List.flatMap_map]
  rfl

/-- The lines of a container file are those of its instructions. -/
theorem linesOf_file (is : List Instruction) : linesOf (file is) = is.flatMap lines := by
  rw [linesOf, splitOn_file, List.dropLast_concat]

/-- The instructions of a container file are, for each instruction that was written, its first line
and what starts behind its line breaks. -/
theorem instructionsOf_file (is : List Instruction) :
    instructionsOf (file is) = is.flatMap fun i => i.firstLine :: i.further := by
  rw [instructionsOf, linesOf_file, List.filterMap_flatMap]
  exact List.flatMap_congr fun i _ => i.filterMap_lines

theorem instructionsOf_file_eq_iff : instructionsOf (file is) = is ↔ ∀ i ∈ is, i.OneLine := by
  rw [instructionsOf_file, flatMap_eq_self_iff fun i _ => List.cons_ne_nil _ _]
  exact forall₂_congr fun i _ => firstLine_cons_further_iff

/-- Two container files are the same just when their instructions have the same lines. -/
theorem file_eq_file_iff : file is = file js ↔ is.flatMap lines = js.flatMap lines := by
  rw [← String.toList_inj, ← Text.splitOn_inj '\n', splitOn_file, splitOn_file,
    List.append_cancel_right_eq]

theorem length_linesOf_file_eq_iff :
    (linesOf (file is)).length = is.length ↔ ∀ i ∈ is, i.OneLine := by
  rw [linesOf_file, length_flatMap_eq_iff fun i _ => i.lines_ne_nil]
  exact forall₂_congr fun i _ => length_lines_eq_one_iff

/-- A container file has the lines of its instructions, in their order, and another one is the same
file exactly if it has the same lines. An instruction is one line, and is read back as it is,
exactly if its operand has no line break; files of such instructions tell their instructions.
Otherwise the instruction ends at the line break, and each line behind it that starts like an
instruction is a further one. -/
theorem line_breaks_decide (is : List Instruction) :
    ∃ text, containerFile (is.map directive) = .ok text ∧
      linesOf text = is.flatMap lines ∧
      ((linesOf text).length = is.length ↔ ∀ i ∈ is, i.OneLine) ∧
      (instructionsOf text = is.flatMap fun i => i.firstLine :: i.further) ∧
      (instructionsOf text = is ↔ ∀ i ∈ is, i.OneLine) ∧
      ∀ js : List Instruction,
        (containerFile (js.map directive) = .ok text ↔ js.flatMap lines = is.flatMap lines) ∧
        ((∀ i ∈ is, i.OneLine) → (∀ j ∈ js, j.OneLine) →
          containerFile (js.map directive) = .ok text → js = is) := by
  have hfile : ∀ js : List Instruction,
      containerFile (js.map directive) = .ok (file is) ↔ file js = file is := fun js => by
    rw [containerFile_instructions, Except.ok.injEq]
  refine ⟨file is, containerFile_instructions is, linesOf_file is, length_linesOf_file_eq_iff,
    instructionsOf_file is, instructionsOf_file_eq_iff, fun js => ⟨?_, ?_⟩⟩
  · rw [hfile, file_eq_file_iff]
  · intro his hjs h
    rw [← instructionsOf_file_eq_iff.2 his, ← instructionsOf_file_eq_iff.2 hjs, (hfile js).1 h]

/-- A command with a line break adds an instruction of its own. -/
theorem command_adds_instruction : ¬∀ is js : List Instruction,
    containerFile (is.map directive) = containerFile (js.map directive) → is = js := by
  intro h
  have hsame := h [.run "echo a\nRUN echo b"] [.run "echo a", .run "echo b"] (by decide +kernel)
  exact absurd (congrArg List.length hsame) (by decide)

end Directive

end Depot
