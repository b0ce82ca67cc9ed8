import Lasagne.Idl.EnumSupport
import Mathlib.Data.Set.Card

/-!
# Lasagne.Idl.EnumMeaning — what the generated functions do, and where they stand

The C++ enumerators have their values from the header that the IDL compiler itself writes, so these are
arbitrary here.

* `stringTo_inverse_toStr` : the two functions of an enumeration are inverse to each other;
* `namespace_eq_iff` : the functions stand in the enumeration's own namespace where no module is nested.
-/

namespace Lasagne.Idl

open Lasagne.Daf Lasagne.Lang

/-! ## The functions -/

namespace EnumDecl

variable (e : EnumDecl) (value : Text → Int)

/-- `StringTo…` as it runs: the returned enumerator is a value. -/
def runStringTo : Guards Text Int Text := e.stringTo.mapResults value

/-- `…ToString` as it runs: the argument is compared with the values of the enumerators. -/
def runToStr : Guards Int Text Text := e.toStr.mapKeys value

/-- `…Size` as it runs. -/
def runSize : ℕ := e.vals.length

variable {e value}

theorem runToStr_eq_flip : e.runToStr value = (e.runStringTo value).flip e.noValue := by
  simp [runToStr, runStringTo, Guards.mapKeys, Guards.mapResults, Guards.flip, toStr, stringTo, Function.comp_def]

theorem names_runStringTo : (e.runStringTo value).arms.map Prod.fst = e.vals.map AST_Decl.local_name := by
  simp [runStringTo, stringTo, Function.comp_def]

theorem values_runStringTo :
    (e.runStringTo value).arms.map Prod.snd = e.vals.map fun val => value val.full_name := by
  simp [runStringTo, Guards.mapResults, stringTo, Function.comp_def]

/-- With distinct names and distinct values the functions undo each other, answer for just the names and
just the values, and there are as many of them as `…Size` says. -/
theorem stringTo_inverse_toStr (hnames : (e.vals.map AST_Decl.local_name).Nodup)
    (hvalues : (e.vals.map fun val => value val.full_name).Nodup) :
    (∀ (name : Text) (v : Int), (e.runToStr value).call v = .result name ↔ (e.runStringTo value).call name = .result v) ∧
    (∀ name, (e.runStringTo value).call name = .last e.noMatch ↔ name ∉ e.vals.map AST_Decl.local_name) ∧
    (∀ v, (e.runToStr value).call v = .last e.noValue ↔ v ∉ e.vals.map fun val => value val.full_name) ∧
    Set.ncard {name | ∃ v, (e.runStringTo value).call name = .result v} = e.runSize := by
  have hkeys : ((e.runStringTo value).arms.map Prod.fst).Nodup := by rwa [names_runStringTo]
  have hresults : ((e.runStringTo value).arms.map Prod.snd).Nodup := by rwa [values_runStringTo]
  refine ⟨fun name v => ?_, fun name => ?_, fun v => ?_, ?_⟩
  · rw [runToStr_eq_flip]
    exact Guards.call_flip_iff hkeys hresults
  · rw [← @names_runStringTo e value]
    exact Guards.call_eq_last_iff
  · rw [← values_runStringTo, runToStr_eq_flip, show (e.runStringTo value).arms.map Prod.snd =
      ((e.runStringTo value).flip e.noValue).arms.map Prod.fst by simp [Guards.flip, Function.comp_def]]
    exact Guards.call_eq_last_iff
  · have hset : {name | ∃ v, (e.runStringTo value).call name = .result v} =
        ((e.vals.map AST_Decl.local_name).toFinset : Set Text) := by
      ext name
      rw [List.coe_toFinset, ← @names_runStringTo e value]
      exact Guards.exists_call_iff
    rw [hset, Set.ncard_coe_finset, List.toFinset_card_of_nodup hnames, List.length_map, runSize]

/-- An enumeration of two names. -/
def shape : EnumDecl where
  decl := ⟨"SHAPE".toList, "dsto::SHAPE".toList, false⟩
  vals := [⟨"Triangle".toList, "dsto::Triangle".toList, false⟩, ⟨"Square".toList, "dsto::Square".toList, false⟩]

def shapeValue (name : Text) : Int := if name = "dsto::Triangle".toList then 0 else 1

theorem stringTo_inverse_toStr_shape :
    (∀ (name : Text) (v : Int), (shape.runToStr shapeValue).call v = .result name ↔
      (shape.runStringTo shapeValue).call name = .result v) ∧
    (∀ name, (shape.runStringTo shapeValue).call name = .last shape.noMatch ↔
      name ∉ shape.vals.map AST_Decl.local_name) ∧
    (∀ v, (shape.runToStr shapeValue).call v = .last shape.noValue ↔
      v ∉ shape.vals.map fun val => shapeValue val.full_name) ∧
    Set.ncard {name | ∃ v, (shape.runStringTo shapeValue).call name = .result v} = shape.runSize :=
  stringTo_inverse_toStr (by decide) (by decide)

end EnumDecl

/-! ## The namespaces -/

/-- The modules of a path are named by its beginnings. -/
def Prefixes (path : List AST_Decl) : Prop :=
  path.map AST_Decl.full_name = (path.map AST_Decl.local_name).inits.tail.map qualified

theorem prefixes_nil : Prefixes [] := rfl

theorem prefixes_snoc {path : List AST_Decl} {decl : AST_Decl} :
    Prefixes (path ++ [decl]) ↔
      Prefixes path ∧ decl.full_name = qualified (path.map AST_Decl.local_name ++ [decl.local_name]) := by
  have hinits : (path.map AST_Decl.local_name).inits ≠ [] := by
    rw [← List.length_pos_iff, List.length_inits]
    exact Nat.succ_pos _
  unfold Prefixes
  rw [List.map_append, List.map_append, List.inits_append, List.tail_append_of_ne_nil hinits, List.map_append]
  constructor
  · intro h
    obtain ⟨hpath, hdecl⟩ := List.append_inj' h (by simp)
    exact ⟨hpath, by simpa using hdecl⟩
  · rintro ⟨hpath, hdecl⟩
    rw [hpath]
    simp [hdecl]

mutual
theorem Node.Named.leaves : ∀ {node : Node} {path : List AST_Decl}, Prefixes path →
    node.Named (path.map AST_Decl.local_name) → ∀ leaf ∈ Block.leavesAll path (enumBlocks node),
      Prefixes leaf.1 ∧
        leaf.2.decl.full_name = qualified (leaf.1.map AST_Decl.local_name ++ [leaf.2.decl.local_name])
  | .null, _, _, _, leaf, hleaf | .preDefined, _, _, _, leaf, hleaf | .other, _, _, _, leaf, hleaf
  | .astStructure .., _, _, _, leaf, hleaf => by simp [enumBlocks, Block.leavesAll] at hleaf
  | .astEnum decl vals, path, hpath, hnode, leaf, hleaf => by
    obtain rfl : leaf = (path, ⟨decl, vals.reduceOption⟩) := by
      simpa [enumBlocks, Block.leavesAll, Block.leaves] using hleaf
    exact ⟨hpath, hnode⟩
  | .astModule decl scope, path, hpath, hnode, leaf, hleaf => by
    obtain ⟨hdecl, hscope⟩ := hnode
    by_cases himported : decl.imported
    · simp [enumBlocks, himported, Block.leavesAll] at hleaf
    · have hleaf : leaf ∈ Block.leavesAll (path ++ [decl]) (enumBlocksAll scope) := by
        simpa [enumBlocks, himported, Block.leavesAll, Block.leaves] using hleaf
      exact Node.NamedAll.leaves (prefixes_snoc.mpr ⟨hpath, hdecl⟩) (by simpa using hscope) leaf hleaf

theorem Node.NamedAll.leaves : ∀ {scope : List Node} {path : List AST_Decl}, Prefixes path →
    Node.NamedAll (path.map AST_Decl.local_name) scope → ∀ leaf ∈ Block.leavesAll path (enumBlocksAll scope),
      Prefixes leaf.1 ∧
        leaf.2.decl.full_name = qualified (leaf.1.map AST_Decl.local_name ++ [leaf.2.decl.local_name])
  | [], _, _, _, leaf, hleaf => by simp [enumBlocksAll, Block.leavesAll] at hleaf
  | node :: rest, path, hpath, hscope, leaf, hleaf => by
    obtain ⟨hnode, hrest⟩ := hscope
    rw [enumBlocksAll, Block.leavesAll_append, List.mem_append] at hleaf
    rcases hleaf with hleaf | hleaf
    · exact Node.Named.leaves hpath hnode leaf hleaf
    · exact Node.NamedAll.leaves hpath hrest leaf hleaf
end

/-- Where modules are nested, the namespaces that are opened under their full names are not the modules. -/
theorem Prefixes.qualified_eq_iff {path : List AST_Decl} (h : Prefixes path) :
    qualified (path.map AST_Decl.full_name) = qualified (path.map AST_Decl.local_name) ↔ path.length ≤ 1 := by
  induction path using List.reverseRecOn with
  | nil => simp
  | append_singleton path decl _ =>
    obtain ⟨-, hdecl⟩ := prefixes_snoc.mp h
    by_cases hpath : path = []
    · subst hpath
      simp [hdecl, qualified]
    · have hlong : ¬ (path ++ [decl]).length ≤ 1 := by
        have := List.length_pos_iff.mpr hpath
        rw [List.length_append, List.length_singleton]
        omega
      refine iff_of_false (fun heq => ?_) hlong
      -- the outer names and a separator stand in front of the whole path
      rw [List.map_append, List.map_append, List.map_singleton, List.map_singleton, ← hdecl,
        qualified_snoc (by simpa using hpath)] at heq
      have hlength := congrArg List.length heq
      rw [List.length_append, List.length_append, show "::".toList.length = 2 from rfl] at hlength
      omega

/-- An enumeration's functions stand in its own namespace exactly where no module is nested around it. -/
theorem namespace_eq_iff {root : List Node} (hroot : Node.NamedAll [] root) {path : List AST_Decl} {e : EnumDecl}
    (hleaf : (path, e) ∈ Block.leavesAll [] (enumBlocksAll root)) :
    e.decl.full_name = qualified (path.map AST_Decl.local_name ++ [e.decl.local_name]) ∧
      (qualified (path.map AST_Decl.full_name) = qualified (path.map AST_Decl.local_name) ↔ path.length ≤ 1) := by
  obtain ⟨hpath, hname⟩ := Node.NamedAll.leaves prefixes_nil hroot _ hleaf
  exact ⟨hname, hpath.qualified_eq_iff⟩

/-- A module in a module, with an enumeration. -/
def nestedRoot : List Node :=
  [.astModule ⟨"a".toList, "a".toList, false⟩ [.astModule ⟨"b".toList, "a::b".toList, false⟩
    [.astEnum ⟨"E".toList, "a::b::E".toList, false⟩ [some ⟨"X".toList, "a::b::X".toList, false⟩]]]]

theorem namespace_eq_iff_nestedRoot :
    "a::b::E".toList = qualified (["a".toList, "b".toList] ++ ["E".toList]) ∧
      (qualified ["a".toList, "a::b".toList] = qualified ["a".toList, "b".toList] ↔ 2 ≤ 1) :=
  @namespace_eq_iff nestedRoot ⟨⟨rfl, ⟨⟨rfl, ⟨rfl, trivial⟩⟩, trivial⟩⟩, trivial⟩
    [⟨"a".toList, "a".toList, false⟩, ⟨"b".toList, "a::b".toList, false⟩]
    ⟨⟨"E".toList, "a::b::E".toList, false⟩, [⟨"X".toList, "a::b::X".toList, false⟩]⟩ (List.mem_cons_self ..)

end Lasagne.Idl
