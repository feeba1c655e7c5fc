import Trident.Ir.Module
import Trident.Lexing.Literals
import Trident.Lexing.Printing

/-! The symbols that the assembly of a module defines: the labels of its globals,
of its functions and of its string literals. -/

set_option autoImplicit false

namespace Trident

open Foundation

/-- The bytes that `%s` prints for a name. -/
def showName : CStr → Name
  | none => ['(', 'n', 'u', 'l', 'l', ')'].map byte
  | some name => cstr name

def varLabel (name : CStr) : Name := ['v', 'a', 'r', '_'].map byte ++ showName name

def roDataLabel (id : Nat) : Name :=
  ['_', '_', 'r', 'o', '_', 'd', 'a', 't', 'a', '_'].map byte ++ decimal id

/-- The labels that a piece of the output defines. -/
def AsmItem.labels : AsmItem → List Name
  | .resq name _ => [varLabel name]
  | .function name _ => [showName name]
  | .db id _ => [roDataLabel id]
  | _ => []

def itemLabels (items : List AsmItem) : List Name := items.flatMap AsmItem.labels

@[simp] theorem itemLabels_nil : itemLabels [] = [] := rfl

@[simp] theorem itemLabels_cons (item : AsmItem) (items : List AsmItem) :
    itemLabels (item :: items) = item.labels ++ itemLabels items := rfl

@[simp] theorem itemLabels_append (first second : List AsmItem) :
    itemLabels (first ++ second) = itemLabels first ++ itemLabels second := List.flatMap_append

/-- The labels of a module with these tokens. -/
def moduleLabels (module : List IrTop) (tokens : List Token) : List Name :=
  (moduleGlobals module).map varLabel ++
    ((moduleFunctions module).map showName ++ (stringIds tokens).map roDataLabel)

private theorem asmGlobals_labels (module : List IrTop) :
    itemLabels (asmGlobals module) = (moduleGlobals module).map varLabel := by
  induction module with
  | nil => rfl
  | cons node rest ih =>
      cases node with
      | global name size => exact congrArg (varLabel name :: ·) ih
      | _ => exact ih

theorem asmFunctions_function {name : CStr} {params : Nat} {nodes : List IrNode}
    {module : List IrTop} {items : List AsmItem}
    (accepted : asmFunctions (.function name params nodes :: module) = .ok items) :
    ∃ code rest, asmFunction params nodes = .ok code ∧ asmFunctions module = .ok rest ∧
      items = .function name code :: rest := by
  obtain ⟨code, body, accepted⟩ := except_bind_eq_ok.mp accepted
  obtain ⟨rest, later, accepted⟩ := except_bind_eq_ok.mp accepted
  cases accepted
  exact ⟨code, rest, body, later, rfl⟩

theorem asmFunctions_extrn {name : CStr} {module : List IrTop} {items : List AsmItem}
    (accepted : asmFunctions (.extrn name :: module) = .ok items) :
    ∃ rest, asmFunctions module = .ok rest ∧ items = .externLine name :: rest := by
  obtain ⟨rest, later, accepted⟩ := except_bind_eq_ok.mp accepted
  cases accepted
  exact ⟨rest, later, rfl⟩

private theorem asmFunctions_labels {module : List IrTop} {items : List AsmItem}
    (accepted : asmFunctions module = .ok items) :
    itemLabels items = (moduleFunctions module).map showName := by
  induction module generalizing items with
  | nil =>
      cases accepted
      rfl
  | cons node rest ih =>
      cases node with
      | function name params nodes =>
          obtain ⟨code, others, _, later, rfl⟩ := asmFunctions_function accepted
          exact congrArg (showName name :: ·) (ih later)
      | extrn name =>
          obtain ⟨others, later, rfl⟩ := asmFunctions_extrn accepted
          exact (ih later :)
      | _ => exact ih accepted

/-- The pieces of the output. -/
theorem dumpX86_64Nasm_items {file : String} {module : List IrTop} {tokens : List Token}
    {out : OutFile} (dumped : dumpX86_64Nasm file module tokens = .ok out) :
    ∃ functions, asmFunctions module = .ok functions ∧
      out = .asm ([.generatedFrom file, .defaultRel] ++
        (if asmGlobals module = [] then [] else .sectionBss :: asmGlobals module) ++
        .sectionText :: functions ++
        .sectionRodata :: (stringData tokens).map (fun data => .db data.1 data.2) ++
        [.sectionNote]) := by
  obtain ⟨functions, accepted, dumped⟩ := except_bind_eq_ok.mp dumped
  cases dumped
  exact ⟨functions, accepted, rfl⟩

/-- What the assembly of a module defines. -/
theorem dumpX86_64Nasm_labels {file : String} {module : List IrTop} {tokens : List Token}
    {items : List AsmItem} (dumped : dumpX86_64Nasm file module tokens = .ok (.asm items)) :
    itemLabels items = moduleLabels module tokens := by
  obtain ⟨functions, accepted, same⟩ := dumpX86_64Nasm_items dumped
  have globals : itemLabels (if asmGlobals module = [] then [] else .sectionBss :: asmGlobals module) =
      (moduleGlobals module).map varLabel := by
    rw [← asmGlobals_labels]
    split
    · rename_i none_there
      rw [none_there]
    · rfl
  have data : itemLabels ((stringData tokens).map fun data => .db data.1 data.2) =
      (stringIds tokens).map roDataLabel := by
    simp only [itemLabels, stringIds, List.flatMap_map, AsmItem.labels, List.map_map]
    exact List.flatMap_pure_eq_map _ _
  cases same
  simp only [itemLabels_append, itemLabels_cons, itemLabels_nil, AsmItem.labels, globals, data,
    asmFunctions_labels accepted, moduleLabels, List.nil_append, List.append_nil, List.append_assoc]

end Trident
