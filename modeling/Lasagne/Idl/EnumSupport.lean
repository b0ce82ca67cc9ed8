import Lasagne.Idl.Visitor
import Lasagne.Lang.Blocks
import Lasagne.Lang.Guards

/-!
# Lasagne.Idl.EnumSupport — the text that the enumeration visitor writes

The visitor walks over the declarations and appends to `header_`.  What it appends is the layout of a
translation of the declarations, and the state that it works with is as it was before.

* `visitVals_stringToEnum`, `visitVals_enumToString` : the two passes over the enumerators;
* `visitEnum_wrote` : the three functions of an enumeration;
* `visitScope_wrote` : the header of a scope, by the tree;
* `visitScope_result` : the visits that fail.
-/

namespace Lasagne.Idl

open Lasagne.Daf Lasagne.Lang

/-! ## The visitor -/

/-- `VisitorEnumSupport::GeneratorFunction_E`. -/
inductive GeneratorFunction_E
  | STRING_TO_ENUM | ENUM_TO_STRING | ERR
deriving DecidableEq

structure VisitorEnumSupport where
  header_ : Text
  current_enum_ : Text
  current_enum_val_ : Text
  enums_num_ : Int
  which_function_ : GeneratorFunction_E
  indentation_count_ : Int

/-- `VisitorEnumSupport::indent`. -/
def indent (ident : Int) : Text := List.replicate ident.toNat ' '

namespace VisitorEnumSupport

def indent_size_ : Int := 3

/-- The visitor as it is constructed, with the static counter at its start. -/
def create : VisitorEnumSupport := ⟨[], [], [], 0, .ERR, 0⟩

/-- `header_ << indent() << text << std::endl`. -/
def line (s : VisitorEnumSupport) (text : Text) : VisitorEnumSupport :=
  { s with header_ := s.header_ ++ (indent s.indentation_count_ ++ text ++ endl) }

def deeper (s : VisitorEnumSupport) : VisitorEnumSupport :=
  { s with indentation_count_ := s.indentation_count_ + indent_size_ }

def shallower (s : VisitorEnumSupport) : VisitorEnumSupport :=
  { s with indentation_count_ := s.indentation_count_ - indent_size_ }

/-- `VisitorEnumSupport::create_stringToEnum`. -/
def createStringToEnum (node : AST_Decl) (s : VisitorEnumSupport) : VisitorEnumSupport :=
  let s := s.line ("if(\"".toList ++ s.current_enum_val_ ++ "\" == typeString)".toList)
  let s := s.line "\x7b".toList
  let s := { s with enums_num_ := s.enums_num_ + 1 }
  let s := s.deeper
  let s := s.line ("return ".toList ++ node.full_name ++ ";".toList)
  let s := s.shallower
  s.line "\x7d\n".toList

/-- `VisitorEnumSupport::create_enumToString`. -/
def createEnumToString (node : AST_Decl) (s : VisitorEnumSupport) : VisitorEnumSupport :=
  let s := s.line ("if(".toList ++ node.full_name ++ " == typeEnum)".toList)
  let s := s.line "\x7b".toList
  let s := s.deeper
  let s := s.line ("return \"".toList ++ s.current_enum_val_ ++ "\";".toList)
  let s := s.shallower
  s.line "\x7d\n".toList

/-- `VisitorEnumSupport::visit_enum_val`. -/
def visitEnumVal (node : AST_Decl) (s : VisitorEnumSupport) : VisitorEnumSupport × Int :=
  let s := { s with current_enum_val_ := node.local_name }
  match s.which_function_ with
  | .STRING_TO_ENUM => ((createStringToEnum node s.deeper).shallower, 0)
  | .ENUM_TO_STRING => ((createEnumToString node s.deeper).shallower, 0)
  | .ERR => (s, 0)

/-- `VisitorEnumSupport::howManyEnums`. -/
def howManyEnums (s : VisitorEnumSupport) : VisitorEnumSupport :=
  let s := s.deeper
  let s := s.line ("int ".toList ++ s.current_enum_ ++ "Size(void)".toList)
  let s := s.line "\x7b".toList
  let s := s.deeper
  let s := s.line ("return ".toList ++ (toString s.enums_num_).toList ++ ";".toList)
  let s := s.shallower
  let s := s.line "\x7d \n".toList
  let s := s.shallower
  { s with enums_num_ := 0 }

/-- `visit_enum` up to the first visit of the scope. -/
def openStringTo (node : AST_Decl) (s : VisitorEnumSupport) : VisitorEnumSupport :=
  let s := { s with current_enum_ := node.local_name }
  let s := { s with which_function_ := .STRING_TO_ENUM }
  let s := s.deeper
  let s := s.line ("enum ".toList ++ node.full_name ++ " StringTo".toList ++ s.current_enum_ ++
    "(const std::string &typeString)".toList)
  s.line "\x7b".toList

/-- `visit_enum` behind the first visit, up to the end of the function from strings. -/
def closeStringTo (node : AST_Decl) (s : VisitorEnumSupport) : VisitorEnumSupport :=
  let s := s.deeper
  let s := s.line
    ("ACE_ERROR((LM_ERROR, \"ERROR: %N, %l : The input string has not been matched to any of the ".toList ++
      node.full_name ++ " enumerator values \\n\", __FILE__, __LINE__)); \n".toList)
  let s := s.line
    ("std::runtime_error exception(\"ERROR: The input string has not been matched to any of the ".toList ++
      node.full_name ++ " enumerator values \\n\");".toList)
  let s := s.line "throw exception; \n".toList
  let s := s.shallower
  s.line ("\x7d // end function stringTo".toList ++ s.current_enum_ ++ " \n".toList)

/-- `visit_enum` from there to the second visit of the scope. -/
def openToString (node : AST_Decl) (s : VisitorEnumSupport) : VisitorEnumSupport :=
  let s := { s with which_function_ := .ENUM_TO_STRING }
  let s := s.line ("std::string ".toList ++ s.current_enum_ ++ "ToString(enum ".toList ++ node.full_name ++
    " typeEnum)".toList)
  s.line "\x7b".toList

/-- `visit_enum` behind the second visit, up to `howManyEnums`. -/
def closeToString (node : AST_Decl) (s : VisitorEnumSupport) : VisitorEnumSupport :=
  let s := s.deeper
  let s := s.line ("ACE_ERROR((LM_ERROR, \"ERROR: There is no ".toList ++ node.full_name ++
    " enumerator value matching the input enumerator value \\n\")); \n".toList)
  let s := s.line ("return \"ERROR: There is no ".toList ++ node.full_name ++
    " enumerator value matching the input enumerator value \\n\";".toList)
  let s := s.shallower
  let s := s.line ("\x7d // end function ".toList ++ s.current_enum_ ++ "ToString \n\n".toList)
  let s := s.shallower
  { s with which_function_ := .ERR }

/-- `VisitorEnumSupport::visit_enum`. -/
def visitEnum (node : AST_Decl) (visitScope : VisitorEnumSupport → VisitorEnumSupport × Int)
    (s : VisitorEnumSupport) : VisitorEnumSupport × Int :=
  let (s, result1) := visitScope (openStringTo node s)
  let (s, result2) := visitScope (openToString node (closeStringTo node s))
  let s := howManyEnums (closeToString node s)
  if result1 = -1 ∨ result2 = -1 then (s, -1) else (s, 0)

/-- `visit_module` before the visit of the scope: the depth grows before the first line. -/
def openModule (node : AST_Decl) (s : VisitorEnumSupport) : VisitorEnumSupport :=
  let s := s.deeper
  let s := s.line ("namespace ".toList ++ node.full_name)
  s.line "\x7b".toList

/-- `visit_module` behind it: the depth falls before the last line. -/
def closeModule (node : AST_Decl) (s : VisitorEnumSupport) : VisitorEnumSupport :=
  let s := s.shallower
  s.line ("\x7d // namespace ".toList ++ node.full_name)

/-- `VisitorEnumSupport::visit_module`. -/
def visitModule (node : AST_Decl) (visitScope : VisitorEnumSupport → VisitorEnumSupport × Int)
    (s : VisitorEnumSupport) : VisitorEnumSupport × Int :=
  if node.imported then (s, 0)
  else
    let (s, result) := Visitor.baseModule visitScope (openModule node s)
    (closeModule node s, result)

/-- The methods that `VisitorEnumSupport` overrides. -/
def methods : Visitor VisitorEnumSupport :=
  { Visitor.base with visitModule := visitModule, visitEnum := visitEnum, visitEnumVal := visitEnumVal }

end VisitorEnumSupport

/-- `VisitorEnumSupport::generator_name`. -/
def enumGeneratorName : Text := "LASAGNE_EnumSupport".toList

/-- `header_ << text`. -/
def VisitorEnumSupport.put (s : VisitorEnumSupport) (text : Text) : VisitorEnumSupport :=
  { s with header_ := s.header_ ++ text }

/-- The name of the header guard. -/
def enumHeaderId (g : Globals) : Text :=
  VisitorUtils.createHeaderId g (stem g.stripped_filename) true ++ enumGeneratorName

/-- `VisitorEnumSupport::visit_root` before the visit of the scope. -/
def VisitorEnumSupport.openRoot (g : Globals) (s : VisitorEnumSupport) : VisitorEnumSupport :=
  let s := s.put (VisitorUtils.headerGuardStart (enumHeaderId g))
  let s := s.put (VisitorUtils.generationComment g enumGeneratorName)
  s.put (idlIncludes g g.enum_support_ext)

/-- `VisitorEnumSupport::visit_root`: the name of the file that it writes and what is in it, or nothing for a
result of `-1`. -/
def VisitorEnumSupport.visitRoot (g : Globals) (root : List Node) (s : VisitorEnumSupport) : Option (Text × Text) :=
  let filename := stem g.stripped_filename ++ g.enum_support_ext
  let (s, result) := VisitorEnumSupport.methods.visitScope root (s.openRoot g)
  if result = -1 then none
  else
    let s := s.put (VisitorUtils.headerGuardEnd (enumHeaderId g))
    some (g.output_dir ++ filename ++ ".h".toList, s.header_)

/-! ## What is written -/

/-- An enumeration with its enumerators. -/
structure EnumDecl where
  decl : AST_Decl
  vals : List AST_Decl

/-- A line at a depth. -/
def lineText (n : Int) (text : Text) : Text := indent n ++ text ++ endl

/-- An arm of a function at the depth of its test. -/
def armText (n : Int) (test result : Text) : Text :=
  lineText n ("if(".toList ++ test ++ ")".toList) ++ lineText n "\x7b".toList ++
    lineText (n + 3) ("return ".toList ++ result ++ ";".toList) ++ lineText n "\x7d\n".toList

/-- A function at a depth: its arms and the statements behind them are one step deeper. -/
def functionText (n : Int) (signature : Text) (arms : List (Text × Text)) (behind : List Text) (close : Text) : Text :=
  lineText n signature ++ lineText n "\x7b".toList ++ arms.flatMap (fun arm => armText (n + 3) arm.1 arm.2) ++
    behind.flatMap (lineText (n + 3)) ++ lineText n close

namespace EnumDecl

/-- A text as a literal. -/
def quoted (text : Text) : Text := "\"".toList ++ text ++ "\"".toList

def noMatch (e : EnumDecl) : Text :=
  "ERROR: The input string has not been matched to any of the ".toList ++ e.decl.full_name ++
    " enumerator values \\n".toList

def noValue (e : EnumDecl) : Text :=
  "ERROR: There is no ".toList ++ e.decl.full_name ++ " enumerator value matching the input enumerator value \\n".toList

/-- The function from strings: a name of an enumerator gives the enumerator, and else it throws. -/
def stringTo (e : EnumDecl) : Guards Text Text Text :=
  ⟨e.vals.map fun val => (val.local_name, val.full_name), e.noMatch⟩

/-- The function to strings: an enumerator gives its name, and what is none a text that says so. -/
def toStr (e : EnumDecl) : Guards Text Text Text :=
  ⟨e.vals.map fun val => (val.full_name, val.local_name), e.noValue⟩

/-- The text of a message in a literal, with what stands around the literal. -/
theorem quoted_around {before front back behind : String} {full_name : Text} :
    before.toList ++ (quoted (front.toList ++ full_name ++ back.toList) ++ behind.toList) =
      (before ++ "\"" ++ front).toList ++ (full_name ++ (back ++ "\"" ++ behind).toList) := by
  simp only [quoted, String.toList_append, List.append_assoc]

def stringToText (e : EnumDecl) (n : Int) : Text :=
  functionText n
    ("enum ".toList ++ e.decl.full_name ++ " StringTo".toList ++ e.decl.local_name ++
      "(const std::string &typeString)".toList)
    (e.stringTo.arms.map fun arm => (quoted arm.1 ++ " == typeString".toList, arm.2))
    ["ACE_ERROR((LM_ERROR, \"ERROR: %N, %l : The input string has not been matched to any of the ".toList ++
      e.decl.full_name ++ " enumerator values \\n\", __FILE__, __LINE__)); \n".toList,
      "std::runtime_error exception(".toList ++ quoted e.stringTo.last ++ ");".toList,
      "throw exception; \n".toList]
    ("\x7d // end function stringTo".toList ++ e.decl.local_name ++ " \n".toList)

def toStrText (e : EnumDecl) (n : Int) : Text :=
  functionText n
    ("std::string ".toList ++ e.decl.local_name ++ "ToString(enum ".toList ++ e.decl.full_name ++ " typeEnum)".toList)
    (e.toStr.arms.map fun arm => (arm.1 ++ " == typeEnum".toList, quoted arm.2))
    ["ACE_ERROR((LM_ERROR, ".toList ++ quoted e.toStr.last ++ ")); \n".toList,
      "return ".toList ++ quoted e.toStr.last ++ ";".toList]
    ("\x7d // end function ".toList ++ e.decl.local_name ++ "ToString \n\n".toList)

def sizeText (e : EnumDecl) (n : Int) : Text :=
  functionText n ("int ".toList ++ e.decl.local_name ++ "Size(void)".toList) []
    ["return ".toList ++ (toString (e.vals.length : Int)).toList ++ ";".toList] "\x7d \n".toList

/-- The three functions of an enumeration, one step deeper than the scope it stands in. -/
def text (n : Int) (e : EnumDecl) : Text := e.stringToText (n + 3) ++ e.toStrText (n + 3) ++ e.sizeText (n + 3)

end EnumDecl

/-- How the header of an enumeration file is laid out. -/
def enumLayout : Layout AST_Decl EnumDecl Char where
  leaf := EnumDecl.text
  opening n node := lineText (n + 3) ("namespace ".toList ++ node.full_name) ++ lineText (n + 3) "\x7b".toList
  closing n node := lineText n ("\x7d // namespace ".toList ++ node.full_name)
  width := 3

mutual
/-- The functions for a declaration: those of its enumerations, and none for what was included. -/
def enumBlocks : Node → List (Block AST_Decl EnumDecl)
  | .astModule decl scope => if decl.imported then [] else [.group decl (enumBlocksAll scope)]
  | .astEnum decl vals => [.leaf ⟨decl, vals.reduceOption⟩]
  | .null | .preDefined | .astStructure .. | .other => []

/-- The functions for a scope. -/
def enumBlocksAll : List Node → List (Block AST_Decl EnumDecl)
  | [] => []
  | node :: rest => enumBlocks node ++ enumBlocksAll rest
end

mutual
/-- The visit comes upon an item that is no node. -/
def enumFails : Node → Bool
  | .null => true
  | .astModule decl scope => !decl.imported && enumFailsAll scope
  | .astEnum _ vals => vals.any Option.isNone
  | .preDefined | .astStructure .. | .other => false

def enumFailsAll : List Node → Bool
  | [] => false
  | node :: rest => enumFails node || enumFailsAll rest
end

/-! ## The visit -/

namespace VisitorEnumSupport

/-- From `s` to `s'` the text was written, and the rest of the state is what it was. -/
structure Wrote (s s' : VisitorEnumSupport) (text : Text) : Prop where
  header : s'.header_ = s.header_ ++ text
  depth : s'.indentation_count_ = s.indentation_count_
  which : s'.which_function_ = s.which_function_
  num : s'.enums_num_ = s.enums_num_

theorem Wrote.refl (s : VisitorEnumSupport) : Wrote s s [] := ⟨(List.append_nil _).symm, rfl, rfl, rfl⟩

theorem Wrote.trans {s s' s'' : VisitorEnumSupport} {text text' : Text} (h : Wrote s s' text)
    (h' : Wrote s' s'' text') : Wrote s s'' (text ++ text') :=
  ⟨by rw [h'.header, h.header, List.append_assoc], h'.depth.trans h.depth, h'.which.trans h.which, h'.num.trans h.num⟩

@[simp] theorem methods_visitEnumVal : methods.visitEnumVal = visitEnumVal := rfl

theorem visitEnumVal_stringToEnum (v : AST_Decl) (s : VisitorEnumSupport) (hs : s.which_function_ = .STRING_TO_ENUM) :
    visitEnumVal v s =
      ({ s with
          header_ := s.header_ ++
            armText (s.indentation_count_ + 3) (EnumDecl.quoted v.local_name ++ " == typeString".toList) v.full_name
          enums_num_ := s.enums_num_ + 1
          current_enum_val_ := v.local_name }, 0) := by
  simp [visitEnumVal, hs, createStringToEnum, line, deeper, shallower, indent_size_, armText, lineText, EnumDecl.quoted]

theorem visitEnumVal_enumToString (v : AST_Decl) (s : VisitorEnumSupport) (hs : s.which_function_ = .ENUM_TO_STRING) :
    visitEnumVal v s =
      ({ s with
          header_ := s.header_ ++
            armText (s.indentation_count_ + 3) (v.full_name ++ " == typeEnum".toList) (EnumDecl.quoted v.local_name)
          current_enum_val_ := v.local_name }, 0) := by
  simp [visitEnumVal, hs, createEnumToString, line, deeper, shallower, indent_size_, armText, lineText, EnumDecl.quoted]

/-- The pass over the enumerators for the function from strings. -/
theorem visitVals_stringToEnum (vals : List AST_Decl) (s : VisitorEnumSupport)
    (hs : s.which_function_ = .STRING_TO_ENUM) :
    methods.visitVals (vals.map some) s =
      ({ s with
          header_ := s.header_ ++ vals.flatMap fun v =>
            armText (s.indentation_count_ + 3) (EnumDecl.quoted v.local_name ++ " == typeString".toList) v.full_name
          enums_num_ := s.enums_num_ + vals.length
          current_enum_val_ := vals.foldl (fun _ v => v.local_name) s.current_enum_val_ }, 0) := by
  induction vals generalizing s with
  | nil => simp
  | cons v vals ih =>
    rw [List.map_cons, Visitor.visitVals_cons, methods_visitEnumVal, visitEnumVal_stringToEnum v s hs,
      if_neg (by simp), ih]
    · simp only [List.flatMap_cons, List.append_assoc, List.length_cons, Nat.cast_add, Nat.cast_one, add_assoc,
        add_comm (1 : Int), List.foldl_cons]
    · exact hs

/-- The pass over the enumerators for the function to strings. -/
theorem visitVals_enumToString (vals : List AST_Decl) (s : VisitorEnumSupport)
    (hs : s.which_function_ = .ENUM_TO_STRING) :
    methods.visitVals (vals.map some) s =
      ({ s with
          header_ := s.header_ ++ vals.flatMap fun v =>
            armText (s.indentation_count_ + 3) (v.full_name ++ " == typeEnum".toList) (EnumDecl.quoted v.local_name)
          current_enum_val_ := vals.foldl (fun _ v => v.local_name) s.current_enum_val_ }, 0) := by
  induction vals generalizing s with
  | nil => simp
  | cons v vals ih =>
    rw [List.map_cons, Visitor.visitVals_cons, methods_visitEnumVal, visitEnumVal_enumToString v s hs,
      if_neg (by simp), ih]
    · simp only [List.flatMap_cons, List.append_assoc, List.foldl_cons]
    · exact hs

theorem line_eq (s : VisitorEnumSupport) (text : Text) :
    s.line text = { s with header_ := s.header_ ++ lineText s.indentation_count_ text } := rfl

theorem openStringTo_eq (decl : AST_Decl) (s : VisitorEnumSupport) :
    openStringTo decl s =
      { s with
        header_ := s.header_ ++ (lineText (s.indentation_count_ + 3) ("enum ".toList ++ decl.full_name ++
          " StringTo".toList ++ decl.local_name ++ "(const std::string &typeString)".toList) ++
          lineText (s.indentation_count_ + 3) "\x7b".toList)
        current_enum_ := decl.local_name
        which_function_ := .STRING_TO_ENUM
        indentation_count_ := s.indentation_count_ + 3 } := by
  simp only [openStringTo, line_eq, deeper, indent_size_, List.append_assoc]

theorem throws_eq (e : EnumDecl) :
    "std::runtime_error exception(".toList ++ (EnumDecl.quoted e.noMatch ++ ");".toList) =
      "std::runtime_error exception(\"ERROR: The input string has not been matched to any of the ".toList ++
        (e.decl.full_name ++ " enumerator values \\n\");".toList) :=
  EnumDecl.quoted_around

theorem returns_eq (e : EnumDecl) :
    "return ".toList ++ (EnumDecl.quoted e.noValue ++ ";".toList) =
      "return \"ERROR: There is no ".toList ++
        (e.decl.full_name ++ " enumerator value matching the input enumerator value \\n\";".toList) :=
  EnumDecl.quoted_around

theorem logs_eq (e : EnumDecl) :
    "ACE_ERROR((LM_ERROR, ".toList ++ (EnumDecl.quoted e.noValue ++ ")); \n".toList) =
      "ACE_ERROR((LM_ERROR, \"ERROR: There is no ".toList ++
        (e.decl.full_name ++ " enumerator value matching the input enumerator value \\n\")); \n".toList) :=
  EnumDecl.quoted_around

/-- The function from strings, with the pass over the enumerators between its beginning and its end. -/
theorem stringTo_wrote (e : EnumDecl) (s : VisitorEnumSupport) :
    ∃ s', methods.visitVals (e.vals.map some) (openStringTo e.decl s) = (s', 0) ∧
      closeStringTo e.decl s' =
        { s with
          header_ := s.header_ ++ e.stringToText (s.indentation_count_ + 3)
          current_enum_ := e.decl.local_name
          current_enum_val_ := e.vals.foldl (fun _ v => v.local_name) s.current_enum_val_
          enums_num_ := s.enums_num_ + e.vals.length
          which_function_ := .STRING_TO_ENUM
          indentation_count_ := s.indentation_count_ + 3 } := by
  rw [openStringTo_eq, visitVals_stringToEnum _ _ rfl]
  refine ⟨_, rfl, ?_⟩
  simp only [closeStringTo, line_eq, deeper, shallower, indent_size_, EnumDecl.stringToText, functionText, throws_eq,
    add_sub_cancel_right, EnumDecl.stringTo, List.flatMap_map, List.map_map, List.flatMap_cons, List.flatMap_nil,
    List.append_assoc, List.append_nil, Function.comp_def]

/-- The function to strings, likewise. -/
theorem toString_wrote (e : EnumDecl) (s : VisitorEnumSupport) (hs : s.current_enum_ = e.decl.local_name) :
    ∃ s', methods.visitVals (e.vals.map some) (openToString e.decl s) = (s', 0) ∧
      closeToString e.decl s' =
        { s with
          header_ := s.header_ ++ e.toStrText s.indentation_count_
          current_enum_val_ := e.vals.foldl (fun _ v => v.local_name) s.current_enum_val_
          which_function_ := .ERR
          indentation_count_ := s.indentation_count_ - 3 } := by
  simp only [openToString, line_eq]
  rw [visitVals_enumToString _ _ rfl]
  refine ⟨_, rfl, ?_⟩
  simp only [closeToString, line_eq, deeper, shallower, indent_size_, EnumDecl.toStrText, functionText, returns_eq,
    logs_eq, hs, add_sub_cancel_right, EnumDecl.toStr, List.flatMap_map, List.map_map, List.flatMap_cons,
    List.flatMap_nil, List.append_assoc, List.append_nil, Function.comp_def]

/-- An enumeration whose enumerators are all there gets its three functions. -/
theorem visitEnum_wrote (e : EnumDecl) (s : VisitorEnumSupport) (hnum : s.enums_num_ = 0)
    (hwhich : s.which_function_ = .ERR) :
    ∃ s', visitEnum e.decl (methods.visitVals (e.vals.map some)) s = (s', 0) ∧
      Wrote s s' (e.text s.indentation_count_) := by
  obtain ⟨s₁, hfirst, hclose⟩ := stringTo_wrote e s
  obtain ⟨s₂, hsecond, hclose'⟩ := toString_wrote e (closeStringTo e.decl s₁) (by rw [hclose])
  refine ⟨howManyEnums (closeToString e.decl s₂), ?_, ?_⟩
  · simp [visitEnum, hfirst, hsecond]
  · rw [hclose', hclose]
    constructor
    · simp [howManyEnums, line_eq, deeper, shallower, indent_size_, hnum, EnumDecl.text, EnumDecl.sizeText, functionText]
    · simp [howManyEnums, line_eq, deeper, shallower, indent_size_]
    · exact hwhich.symm
    · exact hnum.symm

theorem map_some_reduceOption {vals : List (Option AST_Decl)} (h : vals.any Option.isNone = false) :
    vals.reduceOption.map some = vals := by
  induction vals with
  | nil => rfl
  | cons val rest ih =>
    cases val with
    | none => simp at h
    | some val =>
      rw [List.reduceOption_cons_of_some, List.map_cons, ih (by simpa using h)]

/-- A module that is not included stands around what the visit of its scope writes. -/
theorem visitModule_wrote {decl : AST_Decl} (himported : decl.imported = false)
    {visitScope : VisitorEnumSupport → VisitorEnumSupport × Int} {s s' : VisitorEnumSupport} {text : Text}
    (hvisit : visitScope (openModule decl s) = (s', 0)) (hwrote : Wrote (openModule decl s) s' text) :
    visitModule decl visitScope s = (closeModule decl s', 0) ∧
      Wrote s (closeModule decl s') (enumLayout.opening s.indentation_count_ decl ++ text ++
        enumLayout.closing s.indentation_count_ decl) := by
  have hdepth : s'.shallower.indentation_count_ = s.indentation_count_ := by
    show s'.indentation_count_ - 3 = _
    rw [hwrote.depth]
    exact add_sub_cancel_right _ _
  refine ⟨?_, ?_, hdepth, hwrote.which, hwrote.num⟩
  · simp [visitModule, himported, Visitor.baseModule, hvisit]
  · show s'.header_ ++ lineText s'.shallower.indentation_count_ _ = _
    rw [hwrote.header, hdepth]
    simp only [openModule, line_eq, enumLayout, deeper, indent_size_, List.append_assoc]

mutual
/-- Where no item is missing, the visit of a declaration writes its functions. -/
theorem visitItem_wrote : ∀ (node : Node) (s : VisitorEnumSupport), s.enums_num_ = 0 → s.which_function_ = .ERR →
    enumFails node = false → ∃ s', methods.visitItem node s = (s', 0) ∧
      Wrote s s' (Block.layoutAll enumLayout s.indentation_count_ (enumBlocks node))
  | .null, _, _, _, hnode => by simp [enumFails] at hnode
  | .preDefined, s, _, _, _ => ⟨s, rfl, .refl s⟩
  | .other, s, _, _, _ => ⟨s, rfl, .refl s⟩
  | .astStructure .., s, _, _, _ => ⟨s, rfl, .refl s⟩
  | .astEnum decl vals, s, hnum, hwhich, hnode => by
    obtain ⟨s', hvisit, hwrote⟩ := visitEnum_wrote ⟨decl, vals.reduceOption⟩ s hnum hwhich
    refine ⟨s', ?_, ?_⟩
    · rwa [map_some_reduceOption hnode] at hvisit
    · simpa [enumBlocks, Block.layoutAll, Block.layout, enumLayout] using hwrote
  | .astModule decl scope, s, hnum, hwhich, hnode => by
    by_cases himported : decl.imported
    · refine ⟨s, ?_, ?_⟩
      · simp [Visitor.visitItem, methods, visitModule, himported]
      · rw [enumBlocks, if_pos himported]
        exact .refl s
    · rw [enumFails, Bool.and_eq_false_imp] at hnode
      obtain ⟨s', hvisit, hwrote⟩ := visitScope_wrote scope (openModule decl s) hnum hwhich (hnode (by simp [himported]))
      obtain ⟨hvisit, hwrote⟩ := visitModule_wrote (by simpa using himported) hvisit hwrote
      refine ⟨closeModule decl s', hvisit, ?_⟩
      rw [enumBlocks, if_neg himported, Block.layoutAll, Block.layout, Block.layoutAll, List.append_nil]
      exact hwrote

/-- The visit of a scope writes the functions of its declarations in order. -/
theorem visitScope_wrote : ∀ (scope : List Node) (s : VisitorEnumSupport), s.enums_num_ = 0 → s.which_function_ = .ERR →
    enumFailsAll scope = false → ∃ s', methods.visitScope scope s = (s', 0) ∧
      Wrote s s' (Block.layoutAll enumLayout s.indentation_count_ (enumBlocksAll scope))
  | [], s, _, _, _ => ⟨s, by rw [Visitor.visitScope_nil], .refl s⟩
  | node :: rest, s, hnum, hwhich, hscope => by
    rw [enumFailsAll, Bool.or_eq_false_iff] at hscope
    obtain ⟨s₁, hnode, hwrote⟩ := visitItem_wrote node s hnum hwhich hscope.1
    obtain ⟨s₂, hrest, hwrote'⟩ :=
      visitScope_wrote rest s₁ (hwrote.num.trans hnum) (hwrote.which.trans hwhich) hscope.2
    refine ⟨s₂, ?_, ?_⟩
    · rw [Visitor.visitScope_cons, hnode, if_neg (by simp), hrest]
    · rw [enumBlocksAll, Block.layoutAll_append]
      rw [hwrote.depth] at hwrote'
      exact hwrote.trans hwrote'
end

@[simp] theorem visitEnumVal_result (val : AST_Decl) (s : VisitorEnumSupport) : (visitEnumVal val s).2 = 0 := by
  unfold visitEnumVal
  cases s.which_function_ <;> rfl

mutual
theorem visitItem_result : ∀ (node : Node) (s : VisitorEnumSupport),
    (methods.visitItem node s).2 = if enumFails node then -1 else 0
  | .null, _ | .preDefined, _ | .other, _ | .astStructure .., _ => rfl
  | .astEnum decl vals, s => by
    have hpass : ∀ s, (methods.visitVals vals s).2 = -1 ↔ none ∈ vals :=
      Visitor.visitVals_failed_iff visitEnumVal_result vals
    have hnone : vals.any Option.isNone = true ↔ none ∈ vals := by
      simp [List.any_eq_true, Option.isNone_iff_eq_none]
    show (visitEnum decl (methods.visitVals vals) s).2 = _
    simp only [visitEnum, hpass, or_self, enumFails, hnone]
    split <;> rfl
  | .astModule decl scope, s => by
    have hscope := visitScope_result scope (openModule decl s)
    show (visitModule decl (methods.visitScope scope) s).2 = _
    by_cases himported : decl.imported
    · simp [visitModule, enumFails, himported]
    · simp only [visitModule, himported, Visitor.baseModule, hscope, enumFails]
      cases enumFailsAll scope <;> simp

/-- The visit fails exactly where it comes upon an item that is no node. -/
theorem visitScope_result : ∀ (scope : List Node) (s : VisitorEnumSupport),
    (methods.visitScope scope s).2 = if enumFailsAll scope then -1 else 0
  | [], _ => by simp [enumFailsAll]
  | node :: rest, s => by
    have hnode := visitItem_result node s
    rw [Visitor.visitScope_cons, hnode, enumFailsAll]
    cases hfails : enumFails node with
    | true => simp
    | false => simpa using visitScope_result rest _
end

end VisitorEnumSupport

/-- The generated header: the layout of the functions between the guards, and no file where the visit comes
upon an item that is no node. -/
theorem visitRoot_create (g : Globals) (root : List Node) :
    VisitorEnumSupport.create.visitRoot g root =
      if enumFailsAll root then none
      else some (g.output_dir ++ (stem g.stripped_filename ++ g.enum_support_ext) ++ ".h".toList,
        VisitorUtils.headerGuardStart (enumHeaderId g) ++ VisitorUtils.generationComment g enumGeneratorName ++
          idlIncludes g g.enum_support_ext ++ Block.layoutAll enumLayout 0 (enumBlocksAll root) ++
          VisitorUtils.headerGuardEnd (enumHeaderId g)) := by
  unfold VisitorEnumSupport.visitRoot
  by_cases hroot : enumFailsAll root = true
  · simp only [VisitorEnumSupport.visitScope_result, hroot, if_true]
  · obtain ⟨s', hvisit, hwrote⟩ := VisitorEnumSupport.visitScope_wrote root
      (VisitorEnumSupport.create.openRoot g) rfl rfl (by simpa using hroot)
    have hheader : s'.header_ = _ := hwrote.header
    rw [if_neg hroot, hvisit]
    simp only [VisitorEnumSupport.put, hheader]
    rfl

end Lasagne.Idl
