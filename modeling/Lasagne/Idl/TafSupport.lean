import Lasagne.Idl.Visitor
import Lasagne.Lang.Blocks

/-!
# Lasagne.Idl.TafSupport — the type support of the topics

The visitor writes a header and an implementation file side by side.  A topic's typedefs name the namespace
that the visitor noted last, and it notes one when it comes to a module and never when it leaves one.

* `visitScope_wrote` : both files, by the tree;
* `named_iff` : the trees whose topics all name the module they are in.
-/

namespace Lasagne.Idl

open Lasagne.Daf Lasagne.Lang

/-! ## The visitor -/

structure VisitorTafSupport where
  header_ : Text
  impl_ : Text
  current_namespace_ : Text
  indentation_count_ : Int

namespace VisitorTafSupport

/-- `VisitorTafSupport::indent`. -/
def indent (ident : Int) : Text := List.replicate ident.toNat ' '

/-- The visitor as it is constructed, with the static counter at its start. -/
def create : VisitorTafSupport := ⟨[], [], [], 0⟩

/-- `VisitorTafSupport::data_support_name`. -/
def dataSupportName (name : Text) : Text := name ++ "_DataSupport".toList

/-- The typedefs that `visit_structure` writes for a topic. -/
def topicText (n : Int) (current_namespace_ name : Text) : Text :=
  indent n ++ "typedef DEFINE_DDS_TYPESUPPORT(".toList ++ current_namespace_ ++ ", ".toList ++ name ++ ") ".toList ++
    dataSupportName name ++ ";".toList ++ endl ++
  indent n ++ "//typedef ".toList ++ dataSupportName name ++ "::_data_holder_type".toList ++ name ++
    "_HolderType".toList ++ endl ++
  (["_TopicType".toList, "_CORBAType".toList, "_TopicAdapter".toList, "_CORBAAdapter".toList].flatMap fun ending =>
    indent n ++ "typedef ".toList ++ dataSupportName name ++ "::_data_type    ".toList ++ name ++ ending ++ ";".toList ++
      endl) ++ endl ++
  indent n ++ "typedef class TAFDDS::TOPICReaderListener< ".toList ++ dataSupportName name ++ " > ".toList ++ name ++
    "_DataListener; ".toList ++ endl ++
  indent n ++ "typedef class TAFDDS::DDS_Subscriber< ".toList ++ "TAFDDS::SubscriberListener".toList ++ " > ".toList ++
    name ++ "_Subscriber;".toList ++ endl ++
  indent n ++ "typedef class TAFDDS::DDS_Publisher< ".toList ++ "TAFDDS::PublisherListener".toList ++ " > ".toList ++
    name ++ "_Publisher;".toList ++ endl ++
  indent n ++ "typedef class TAFDDS::DDS_Topic< ".toList ++ dataSupportName name ++ " > ".toList ++ name ++
    "_Topic;".toList ++ endl ++
  indent n ++ "typedef class TAFDDS::DDS_Reader< ".toList ++ name ++ "_Topic".toList ++ ", ".toList ++ name ++
    "_DataListener".toList ++ " > ".toList ++ name ++ "_Reader;".toList ++ endl ++
  indent n ++ "typedef class TAFDDS::DDS_Writer< ".toList ++ dataSupportName name ++ " > ".toList ++ name ++
    "_Writer;".toList ++ endl ++ endl

/-- `VisitorTafSupport::visit_structure`. -/
def visitStructure (node : AST_Decl) (dcps : Bool) (s : VisitorTafSupport) : VisitorTafSupport × Int :=
  if node.imported then (s, 0)
  else if dcps then
    ({ s with header_ := s.header_ ++ topicText s.indentation_count_ s.current_namespace_ node.local_name }, 0)
  else (s, 0)

/-- The first lines of a module, in both files. -/
def openModule (node : AST_Decl) (s : VisitorTafSupport) : VisitorTafSupport :=
  { header_ := s.header_ ++ (endl ++ indent s.indentation_count_ ++ "namespace ".toList ++ node.local_name ++ endl ++
      indent s.indentation_count_ ++ "\x7b".toList ++ endl)
    impl_ := s.impl_ ++ (endl ++ "namespace ".toList ++ node.local_name ++ endl ++ "\x7b".toList ++ endl)
    current_namespace_ := node.local_name
    indentation_count_ := s.indentation_count_ + 3 }

/-- The last lines of a module, in both files. -/
def closeModule (node : AST_Decl) (s : VisitorTafSupport) : VisitorTafSupport :=
  { s with
    header_ := s.header_ ++ (indent (s.indentation_count_ - 3) ++ "\x7d // namespace ".toList ++ node.local_name ++ endl)
    impl_ := s.impl_ ++ ("\x7d // namespace ".toList ++ node.local_name ++ endl)
    indentation_count_ := s.indentation_count_ - 3 }

/-- `VisitorTafSupport::visit_module`. -/
def visitModule (node : AST_Decl) (visitScope : VisitorTafSupport → VisitorTafSupport × Int) (s : VisitorTafSupport) :
    VisitorTafSupport × Int :=
  if node.imported then (s, 0)
  else
    let (s, result) := Visitor.baseModule visitScope (openModule node s)
    (closeModule node s, result)

/-- The methods that `VisitorTafSupport` overrides. -/
def methods : Visitor VisitorTafSupport :=
  { Visitor.base with visitModule := visitModule, visitStructure := visitStructure }

end VisitorTafSupport

namespace VisitorUtils

/-- `VisitorUtils::data_support_includes`. -/
def dataSupportIncludes (filename : Text) : Text :=
  "\n#if defined(TAF_USES_DDSCORBA)\n\n".toList ++
    "\n#include \"".toList ++ filename ++ "C.h\"\n".toList ++
    "#include \"".toList ++ filename ++ "S.h\"\n".toList ++
    "\n#elif defined(TAF_USES_NDDS)\n\n".toList ++
    "#include \"".toList ++ filename ++ ".h\"\n".toList ++
    "\n#elif defined(TAF_USES_COREDX)\n\n".toList ++
    "#include \"".toList ++ filename ++ ".hh\"\n".toList ++
    "\n#elif defined(TAF_USES_OPENSPLICE)\n\n".toList ++
    "#include \"ccpp_".toList ++ filename ++ ".h\"\n".toList ++
    "\n#endif\n\n".toList ++
  "#if defined(TAF_USES_OPENDDS)\n\n".toList ++
    "#include \"".toList ++ filename ++ "TypeSupportC.h\"\n".toList ++
    "#include \"".toList ++ filename ++ "TypeSupportS.h\"\n".toList ++
    "#include \"".toList ++ filename ++ "TypeSupportImpl.h\"\n".toList ++
    "\n#elif defined(TAF_USES_NDDS)\n\n".toList ++
    "#include \"".toList ++ filename ++ "Support.h\"\n".toList ++
    "#include \"".toList ++ filename ++ "Plugin.h\"\n".toList ++
    "\n#elif defined(TAF_USES_COREDX)\n\n".toList ++
    "#include \"".toList ++ filename ++ "TypeSupport.hh\"\n".toList ++
    "#include \"".toList ++ filename ++ "DataReader.hh\"\n".toList ++
    "#include \"".toList ++ filename ++ "DataWriter.hh\"\n".toList ++
    "\n#elif defined(TAF_USES_OPENSPLICE)\n\n".toList ++
    "\n#if defined(TAF_USES_DDSCORBA)\n\n".toList ++
    "#include \"".toList ++ filename ++ "DcpsC.h\"\n".toList ++
    "\n#else\n\n".toList ++
    "#include \"".toList ++ filename ++ "Dcps.h\"\n".toList ++
    "\n#endif\n".toList ++
    "#include \"".toList ++ filename ++ "Dcps_Impl.h\"\n".toList ++
    "\n#else\n".toList ++
    "#error ERROR : You have not set TAF DDS flags for your build\n".toList ++
    "\n#endif\n\n".toList

/-- `VisitorUtils::taf_dds_headers`. -/
def tafDdsHeaders : Text := endl ++ "#include \"dds/DDSPubSub.h\"".toList ++ endl ++ endl

end VisitorUtils

/-- `VisitorTafSupport::generator_name`. -/
def tafGeneratorName : Text := "LASAGNE_TAFSupport".toList

/-- The name of the header guard. -/
def tafHeaderId (g : Globals) : Text :=
  VisitorUtils.createHeaderId g (stem g.stripped_filename) true ++ tafGeneratorName

/-- What `visit_root` writes to the header before the visit of the scope. -/
def tafStart (g : Globals) : Text :=
  VisitorUtils.headerGuardStart (tafHeaderId g) ++ VisitorUtils.generationComment g tafGeneratorName ++
    idlIncludes g g.taf_support_ext ++ VisitorUtils.dataSupportIncludes (stem g.stripped_filename) ++
    VisitorUtils.tafDdsHeaders

/-- `VisitorTafSupport::visit_root`: the names of the two files and what is in them, or nothing for a result of
`-1`. -/
def VisitorTafSupport.visitRoot (g : Globals) (root : List Node) (s : VisitorTafSupport) :
    Option ((Text × Text) × Text × Text) :=
  let filename := stem g.stripped_filename ++ g.taf_support_ext
  let s := { s with header_ := s.header_ ++ tafStart g }
  let s := { s with impl_ := s.impl_ ++ ("#include \"".toList ++ (filename ++ ".h".toList) ++ "\"\n\n".toList) }
  let (s, result) := VisitorTafSupport.methods.visitScope root s
  if result = -1 then none
  else
    let s := { s with header_ := s.header_ ++ VisitorUtils.headerGuardEnd (tafHeaderId g) }
    some ((g.output_dir ++ filename ++ ".h".toList, s.header_), g.output_dir ++ filename ++ ".cpp".toList, s.impl_)

/-! ## What is written -/

/-- How the header is laid out; a topic comes with the namespace that it names. -/
def tafHeader : Layout AST_Decl (Text × AST_Decl) Char where
  leaf n topic := VisitorTafSupport.topicText n topic.1 topic.2.local_name
  opening n node := endl ++ VisitorTafSupport.indent n ++ "namespace ".toList ++ node.local_name ++ endl ++
    VisitorTafSupport.indent n ++ "\x7b".toList ++ endl
  closing n node := VisitorTafSupport.indent n ++ "\x7d // namespace ".toList ++ node.local_name ++ endl
  width := 3

/-- How the implementation file is laid out: the namespaces alone. -/
def tafImpl : Layout AST_Decl (Text × AST_Decl) Char where
  leaf _ _ := []
  opening _ node := endl ++ "namespace ".toList ++ node.local_name ++ endl ++ "\x7b".toList ++ endl
  closing _ node := "\x7d // namespace ".toList ++ node.local_name ++ endl
  width := 0

mutual
/-- The topics of a declaration in their modules, and the namespace that is noted behind it, where `ns` was
noted before it. -/
def tafBlocks (ns : Text) : Node → Text × List (Block AST_Decl (Text × AST_Decl))
  | .astModule decl scope =>
    if decl.imported then (ns, [])
    else
      let (ns', body) := tafBlocksAll decl.local_name scope
      (ns', [.group decl body])
  | .astStructure decl dcps => (ns, if decl.imported then [] else if dcps then [.leaf (ns, decl)] else [])
  | .null | .preDefined | .astEnum .. | .other => (ns, [])

/-- The same for a scope. -/
def tafBlocksAll (ns : Text) : List Node → Text × List (Block AST_Decl (Text × AST_Decl))
  | [] => (ns, [])
  | node :: rest =>
    let (ns, blocks) := tafBlocks ns node
    let (ns, more) := tafBlocksAll ns rest
    (ns, blocks ++ more)
end

mutual
/-- The visit comes upon an item that is no node; enumerations are not looked into. -/
def tafFails : Node → Bool
  | .null => true
  | .astModule decl scope => !decl.imported && tafFailsAll scope
  | .preDefined | .astEnum .. | .astStructure .. | .other => false

def tafFailsAll : List Node → Bool
  | [] => false
  | node :: rest => tafFails node || tafFailsAll rest
end

/-! ## The visit -/

namespace VisitorTafSupport

/-- The state after blocks were written behind which `ns` is noted. -/
def wrote (s : VisitorTafSupport) (blocks : Text × List (Block AST_Decl (Text × AST_Decl))) : VisitorTafSupport :=
  { s with
    header_ := s.header_ ++ Block.layoutAll tafHeader s.indentation_count_ blocks.2
    impl_ := s.impl_ ++ Block.layoutAll tafImpl 0 blocks.2
    current_namespace_ := blocks.1 }

mutual
/-- Where no item is missing, the visit of a declaration writes its topics in their modules. -/
theorem visitItem_wrote : ∀ (node : Node) (s : VisitorTafSupport), tafFails node = false →
    methods.visitItem node s = (s.wrote (tafBlocks s.current_namespace_ node), 0)
  | .null, _, hnode => by simp [tafFails] at hnode
  | .preDefined, s, _ | .other, s, _ | .astEnum .., s, _ => by
    simp [wrote, tafBlocks, Block.layoutAll, Visitor.visitItem, methods, Visitor.base]
  | .astStructure decl dcps, s, _ => by
    show visitStructure decl dcps s = _
    rw [visitStructure, tafBlocks]
    split
    · simp [wrote, Block.layoutAll]
    · split
      · simp [wrote, Block.layoutAll, Block.layout, tafHeader, tafImpl]
      · simp [wrote, Block.layoutAll]
  | .astModule decl scope, s, hnode => by
    show visitModule decl (methods.visitScope scope) s = _
    rw [visitModule, tafBlocks]
    split
    · simp [wrote, Block.layoutAll]
    · next himported =>
      have hscope := visitScope_wrote scope (openModule decl s) (by simpa [tafFails, himported] using hnode)
      rw [Visitor.baseModule, hscope]
      simp [closeModule, wrote, openModule, Block.layoutAll, Block.layout, tafHeader, tafImpl]

/-- The visit of a scope writes its topics in order. -/
theorem visitScope_wrote : ∀ (scope : List Node) (s : VisitorTafSupport), tafFailsAll scope = false →
    methods.visitScope scope s = (s.wrote (tafBlocksAll s.current_namespace_ scope), 0)
  | [], s, _ => by simp [wrote, tafBlocksAll, Block.layoutAll]
  | node :: rest, s, hscope => by
    rw [tafFailsAll, Bool.or_eq_false_iff] at hscope
    rw [Visitor.visitScope_cons, visitItem_wrote node s hscope.1, if_neg (by simp), visitScope_wrote rest _ hscope.2]
    simp [wrote, tafBlocksAll, Block.layoutAll_append]
end

mutual
theorem visitItem_result : ∀ (node : Node) (s : VisitorTafSupport),
    (methods.visitItem node s).2 = if tafFails node then -1 else 0
  | .null, _ | .preDefined, _ | .other, _ | .astEnum .., _ => rfl
  | .astStructure decl dcps, s => by
    show (visitStructure decl dcps s).2 = _
    unfold visitStructure
    split
    · rfl
    · split <;> rfl
  | .astModule decl scope, s => by
    have hscope := visitScope_result scope (openModule decl s)
    show (visitModule decl (methods.visitScope scope) s).2 = _
    by_cases himported : decl.imported
    · simp [visitModule, tafFails, himported]
    · simp only [visitModule, himported, Visitor.baseModule, hscope, tafFails]
      cases tafFailsAll scope <;> simp

/-- The visit fails exactly where it comes upon an item that is no node. -/
theorem visitScope_result : ∀ (scope : List Node) (s : VisitorTafSupport),
    (methods.visitScope scope s).2 = if tafFailsAll scope then -1 else 0
  | [], _ => by simp [tafFailsAll]
  | node :: rest, s => by
    rw [Visitor.visitScope_cons, visitItem_result node s, tafFailsAll]
    cases hfails : tafFails node with
    | true => simp
    | false => simpa using visitScope_result rest _
end

end VisitorTafSupport

/-- The two generated files: layouts of the same topics in the same modules, and no file where the visit comes
upon an item that is no node. -/
theorem tafRoot_create (g : Globals) (root : List Node) :
    VisitorTafSupport.create.visitRoot g root =
      if tafFailsAll root then none
      else
        let filename := stem g.stripped_filename ++ g.taf_support_ext
        let blocks := (tafBlocksAll [] root).2
        some ((g.output_dir ++ filename ++ ".h".toList,
            tafStart g ++ Block.layoutAll tafHeader 0 blocks ++ VisitorUtils.headerGuardEnd (tafHeaderId g)),
          g.output_dir ++ filename ++ ".cpp".toList,
          "#include \"".toList ++ (filename ++ ".h".toList) ++ "\"\n\n".toList ++ Block.layoutAll tafImpl 0 blocks) := by
  unfold VisitorTafSupport.visitRoot
  by_cases hroot : tafFailsAll root = true
  · simp only [VisitorTafSupport.visitScope_result, hroot, if_true]
  · dsimp only
    rw [if_neg hroot, VisitorTafSupport.visitScope_wrote root _ (by simpa using hroot)]
    rfl

/-! ## The namespaces of the topics -/

mutual
/-- The name of the module that the visit of a declaration enters last. -/
def entered : Node → Option Text
  | .astModule decl scope => if decl.imported then none else some ((enteredAll scope).getD decl.local_name)
  | .null | .preDefined | .astEnum .. | .astStructure .. | .other => none

def enteredAll : List Node → Option Text
  | [] => none
  | node :: rest => (enteredAll rest).or (entered node)
end

mutual
/-- In the scope of the module `own`, where `last` was entered last, no topic stands behind a module of another
name. -/
def Placed (own : Text) (last : Option Text) : Node → Prop
  | .astModule decl scope => decl.imported = false → PlacedAll decl.local_name none scope
  | .astStructure decl dcps => decl.imported = false → dcps = true → ∀ name ∈ last, name = own
  | .null | .preDefined | .astEnum .. | .other => True

def PlacedAll (own : Text) (last : Option Text) : List Node → Prop
  | [] => True
  | node :: rest => Placed own last node ∧ PlacedAll own ((entered node).or last) rest
end

mutual
theorem tafBlocks_fst : ∀ (node : Node) (ns : Text), (tafBlocks ns node).1 = (entered node).getD ns
  | .null, _ | .preDefined, _ | .other, _ | .astEnum .., _ | .astStructure .., _ => rfl
  | .astModule decl scope, ns => by
    rw [tafBlocks, entered]
    split
    · rfl
    · exact tafBlocksAll_fst scope decl.local_name

theorem tafBlocksAll_fst : ∀ (scope : List Node) (ns : Text), (tafBlocksAll ns scope).1 = (enteredAll scope).getD ns
  | [], _ => rfl
  | node :: rest, ns => by
    show (tafBlocksAll (tafBlocks ns node).1 rest).1 = _
    rw [tafBlocksAll_fst rest, tafBlocks_fst node, enteredAll]
    cases enteredAll rest <;> rfl
end

/-- The name of the innermost module of a path. -/
def ownName (path : List AST_Decl) : Text := (path.getLast?.map AST_Decl.local_name).getD []

@[simp] theorem ownName_snoc (path : List AST_Decl) (decl : AST_Decl) : ownName (path ++ [decl]) = decl.local_name := by
  simp [ownName]

mutual
theorem tafBlocks_named_iff : ∀ (node : Node) (path : List AST_Decl) (last : Option Text),
    (∀ leaf ∈ Block.leavesAll path (tafBlocks (last.getD (ownName path)) node).2, leaf.2.1 = ownName leaf.1) ↔
      Placed (ownName path) last node
  | .null, _, _ | .preDefined, _, _ | .other, _, _ | .astEnum .., _, _ => by
    simp [tafBlocks, Block.leavesAll, Placed]
  | .astStructure decl dcps, path, last => by
    rw [tafBlocks, Placed]
    by_cases himported : decl.imported
    · simp [himported, Block.leavesAll]
    · cases dcps with
      | false => simp [himported, Block.leavesAll]
      | true => cases last <;> simp [himported, Block.leavesAll, Block.leaves]
  | .astModule decl scope, path, last => by
    rw [tafBlocks, Placed]
    by_cases himported : decl.imported
    · simp [himported, Block.leavesAll]
    · have hscope := tafBlocksAll_named_iff scope (path ++ [decl]) none
      simp only [Option.getD_none, ownName_snoc] at hscope
      simpa [himported, Block.leavesAll, Block.leaves] using hscope

theorem tafBlocksAll_named_iff : ∀ (scope : List Node) (path : List AST_Decl) (last : Option Text),
    (∀ leaf ∈ Block.leavesAll path (tafBlocksAll (last.getD (ownName path)) scope).2, leaf.2.1 = ownName leaf.1) ↔
      PlacedAll (ownName path) last scope
  | [], _, _ => by simp [tafBlocksAll, Block.leavesAll, PlacedAll]
  | node :: rest, path, last => by
    have hnode := tafBlocks_named_iff node path last
    have hrest := tafBlocksAll_named_iff rest path ((entered node).or last)
    have hns : (tafBlocks (last.getD (ownName path)) node).1 = ((entered node).or last).getD (ownName path) := by
      rw [tafBlocks_fst]
      cases entered node <;> rfl
    rw [PlacedAll, ← hnode, ← hrest, ← hns]
    show (∀ leaf ∈ Block.leavesAll path (_ ++ _), _) ↔ _
    simp only [Block.leavesAll_append, List.mem_append, or_imp, forall_and]
end

/-- Every topic names the module that it stands in exactly where none stands behind a module of another name. -/
theorem named_iff (root : List Node) :
    (∀ leaf ∈ Block.leavesAll [] (tafBlocksAll [] root).2, leaf.2.1 = ownName leaf.1) ↔ PlacedAll [] none root :=
  tafBlocksAll_named_iff root [] none

end Lasagne.Idl
