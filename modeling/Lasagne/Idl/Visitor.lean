import Lasagne.Daf.FormatArgs

/-!
# Lasagne.Idl.Visitor — the declarations of an IDL file and the base class of the visitors

A visitor is the table of the methods that the back end's classes override; `Visitor.visitScope` is the loop
over a scope that they share.  What is no module, enumeration or structure is visited without effect, and
its own scope is left alone.

* `visitScope_cons`, `visitVals_cons` : the loop stops at the first failure;
* `visitVals_failed_iff` : the pass over the enumerators fails where an item of their scope is no node.
-/

namespace Lasagne.Idl

open Lasagne.Daf

/-! ## The declarations -/

/-- What the visitors ask of a declaration. -/
structure AST_Decl where
  local_name : Text
  full_name : Text
  imported : Bool
deriving DecidableEq

/-- The items of a scope: what the iterator gives may be no node at all or a predefined type.  For a
structure, `dcps` says whether `idl_global->is_dcps_type` finds it. -/
inductive Node
  | null
  | preDefined
  | astModule (decl : AST_Decl) (scope : List Node)
  | astEnum (decl : AST_Decl) (vals : List (Option AST_Decl))
  | astStructure (decl : AST_Decl) (dcps : Bool)
  | other

/-- Names as one scoped name. -/
def qualified (path : List Text) : Text := List.intercalate "::".toList path

mutual
/-- The full names are those that the front end gives: the names of what is around a declaration, and its
own. -/
def Node.Named (path : List Text) : Node → Prop
  | .astModule decl scope =>
    decl.full_name = qualified (path ++ [decl.local_name]) ∧ Node.NamedAll (path ++ [decl.local_name]) scope
  | .astEnum decl _ | .astStructure decl _ => decl.full_name = qualified (path ++ [decl.local_name])
  | .null | .preDefined | .other => True

def Node.NamedAll (path : List Text) : List Node → Prop
  | [] => True
  | node :: rest => node.Named path ∧ Node.NamedAll path rest
end

theorem qualified_snoc {path : List Text} (hpath : path ≠ []) (name : Text) :
    qualified (path ++ [name]) = qualified path ++ "::".toList ++ name := by
  unfold qualified
  induction path with
  | nil => exact absurd rfl hpath
  | cons x rest ih =>
    by_cases hrest : rest = []
    · subst hrest
      simp [List.intercalate_cons_cons]
    · rw [List.cons_append, List.intercalate_cons_of_ne_nil (by simp), ih hrest,
        List.intercalate_cons_of_ne_nil hrest]
      simp only [List.append_assoc]

/-! ## The visitors -/

/-- The methods that are overridden somewhere.  A module and an enumeration come with the visit of their
scope, and a result of `-1` is a failure. -/
structure Visitor (σ : Type*) where
  visitModule : AST_Decl → (σ → σ × Int) → σ → σ × Int
  visitEnum : AST_Decl → (σ → σ × Int) → σ → σ × Int
  visitEnumVal : AST_Decl → σ → σ × Int
  visitStructure : AST_Decl → Bool → σ → σ × Int

namespace Visitor

variable {σ : Type*}

/-- `Visitor::visit_module`. -/
def baseModule (visitScope : σ → σ × Int) (s : σ) : σ × Int :=
  let (s, result) := visitScope s
  if result = -1 then (s, -1) else (s, 0)

/-- The base class. -/
def base : Visitor σ where
  visitModule _ visitScope s := baseModule visitScope s
  visitEnum _ _ s := (s, 0)
  visitEnumVal _ s := (s, 0)
  visitStructure _ _ s := (s, 0)

/-- `Visitor::visit_scope` over the enumerators. -/
def visitVals (v : Visitor σ) : List (Option AST_Decl) → σ → σ × Int
  | [], s => (s, 0)
  | none :: _, s => (s, -1)
  | some val :: rest, s =>
    let (s, result) := v.visitEnumVal val s
    if result = -1 then (s, -1) else visitVals v rest s

mutual
/-- One turn of the loop in `Visitor::visit_scope`: `-1` where there is no node, nothing for a predefined
type, and else `ast_accept`. -/
def visitItem (v : Visitor σ) : Node → σ → σ × Int
  | .null, s => (s, -1)
  | .preDefined, s => (s, 0)
  | .astModule decl scope, s => v.visitModule decl (visitScope v scope) s
  | .astEnum decl vals, s => v.visitEnum decl (v.visitVals vals) s
  | .astStructure decl dcps, s => v.visitStructure decl dcps s
  | .other, s => (s, 0)

/-- `Visitor::visit_scope`. -/
def visitScope (v : Visitor σ) : List Node → σ → σ × Int
  | [], s => (s, 0)
  | node :: rest, s =>
    let (s, result) := visitItem v node s
    if result = -1 then (s, -1) else visitScope v rest s
end

/-! ## The loop over a scope -/

@[simp] theorem visitVals_nil (v : Visitor σ) (s : σ) : v.visitVals [] s = (s, 0) := rfl

@[simp] theorem visitScope_nil (v : Visitor σ) (s : σ) : v.visitScope [] s = (s, 0) := by
  rw [visitScope]

theorem visitVals_cons (v : Visitor σ) (val : AST_Decl) (rest : List (Option AST_Decl)) (s : σ) :
    v.visitVals (some val :: rest) s =
      if (v.visitEnumVal val s).2 = -1 then ((v.visitEnumVal val s).1, -1)
      else v.visitVals rest (v.visitEnumVal val s).1 := rfl

theorem visitScope_cons (v : Visitor σ) (node : Node) (rest : List Node) (s : σ) :
    v.visitScope (node :: rest) s =
      if (v.visitItem node s).2 = -1 then ((v.visitItem node s).1, -1)
      else v.visitScope rest (v.visitItem node s).1 := by
  rw [visitScope]

/-- Where no enumerator fails, the pass over them fails at an item that is none. -/
theorem visitVals_failed_iff {v : Visitor σ} (hv : ∀ val s, (v.visitEnumVal val s).2 = 0) (vals : List (Option AST_Decl))
    (s : σ) : (v.visitVals vals s).2 = -1 ↔ none ∈ vals := by
  induction vals generalizing s with
  | nil => simp
  | cons val rest ih =>
    cases val with
    | none => simp [visitVals]
    | some val =>
      rw [visitVals_cons, hv, if_neg (by decide), ih]
      simp

end Visitor

/-! ## The frame of a generated file -/

/-- What the visitors read of the front end and of `be_global`. -/
structure Globals where
  stripped_filename : Text
  included_idl_files : List Text
  date_string : Text
  output_dir : Text
  taf_version : Text
  tao_version : Text
  build_date : Text
  enum_support_ext : Text := "EnumHelper".toList
  taf_support_ext : Text := "TAFSupport".toList

def endl : Text := ['\n']

namespace VisitorUtils

/-- `VisitorUtils::char_convert`. -/
def charConvert (c : Char) : Char :=
  let v := c.toUpper
  let v := if v = ' ' ∨ (9 ≤ v.toNat ∧ v.toNat ≤ 13) then '_' else v
  if 33 ≤ v.toNat ∧ v.toNat ≤ 126 ∧ v.isAlphanum = false then '_' else v

/-- `VisitorUtils::create_header_id`. -/
def createHeaderId (g : Globals) (name : Text) (unique : Bool) : Text :=
  (if unique then name ++ "_".toList ++ g.date_string else name).map charConvert

/-- `VisitorUtils::header_guard_start`. -/
def headerGuardStart (name : Text) : Text :=
  "#ifndef ".toList ++ name ++ endl ++ "#define ".toList ++ name ++ endl ++ endl

/-- `VisitorUtils::header_guard_end`. -/
def headerGuardEnd (name : Text) : Text := endl ++ "#endif //".toList ++ name ++ endl

/-- `VisitorUtils::generation_comment`. -/
def generationComment (g : Globals) (generator_name : Text) : Text :=
  endl ++ "/******************************************************".toList ++ endl ++
    "* Code generated by LASAGNE IDL Compiler".toList ++ endl ++
    "* LASAGNE BE Version : ".toList ++ g.taf_version ++ endl ++
    "* TAO_IDL FE Version : ".toList ++ g.tao_version ++ endl ++
    "* LASAGNE Build Time : ".toList ++ g.build_date ++ endl ++
    "* Generation Visitor : ".toList ++ generator_name ++ endl ++
    "* Creation Date      : ".toList ++ g.date_string ++ endl ++
    "* Input File         : ".toList ++ g.stripped_filename ++ endl ++
    "******************************************************/".toList ++ endl ++ endl

end VisitorUtils

/-- `name.substr(0, name.find("."))`. -/
def stem (name : Text) : Text := name.takeWhile (· ≠ '.')

/-- The loop of `visit_root` over the included IDL files: those with a dot in their name have a generated
file beside them. -/
def idlIncludes (g : Globals) (ext : Text) : Text :=
  if 0 < g.included_idl_files.length then
    "// IDL Includes ".toList ++ (toString g.included_idl_files.length).toList ++ endl ++
      g.included_idl_files.flatMap fun idl_name =>
        if '.' ∈ idl_name then
          "#include \"".toList ++ (stem idl_name ++ ext ++ ".h".toList) ++ "\" // ".toList ++ idl_name ++ endl
        else []
  else []

end Lasagne.Idl
