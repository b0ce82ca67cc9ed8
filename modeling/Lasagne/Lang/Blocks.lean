import Mathlib.Data.List.Basic
import Mathlib.Data.Int.Basic

/-!
# Lasagne.Lang.Blocks — declarations in named blocks

A `Block` is a declaration or a group of blocks under a name.  `Block.layout` writes it out, what is in a
group by a fixed width deeper than the group, and `Block.leaves` lists its declarations with the names of
the groups around them.

* `layoutAll_append`, `leavesAll_append` : lists of blocks are written and listed part by part.
-/

namespace Lasagne.Lang

variable {ν α κ : Type*}

/-- A declaration, or a group of blocks under a name. -/
inductive Block (ν α : Type*)
  | leaf (decl : α)
  | group (name : ν) (body : List (Block ν α))

/-- How blocks are written at a depth: a declaration, and what stands before and behind the body of a
group.  The body is `width` deeper. -/
structure Layout (ν α κ : Type*) where
  leaf : Int → α → List κ
  opening : Int → ν → List κ
  closing : Int → ν → List κ
  width : Int

mutual
/-- A block as it is written at depth `n`. -/
def Block.layout (L : Layout ν α κ) (n : Int) : Block ν α → List κ
  | .leaf decl => L.leaf n decl
  | .group name body => L.opening n name ++ Block.layoutAll L (n + L.width) body ++ L.closing n name

/-- Blocks as they are written one behind the other. -/
def Block.layoutAll (L : Layout ν α κ) (n : Int) : List (Block ν α) → List κ
  | [] => []
  | block :: rest => block.layout L n ++ Block.layoutAll L n rest
end

mutual
/-- The declarations of a block, with the names of the groups around them, outermost first. -/
def Block.leaves (path : List ν) : Block ν α → List (List ν × α)
  | .leaf decl => [(path, decl)]
  | .group name body => Block.leavesAll (path ++ [name]) body

/-- The declarations of a list of blocks. -/
def Block.leavesAll (path : List ν) : List (Block ν α) → List (List ν × α)
  | [] => []
  | block :: rest => block.leaves path ++ Block.leavesAll path rest
end

namespace Block

theorem layoutAll_append (L : Layout ν α κ) (n : Int) (bs cs : List (Block ν α)) :
    layoutAll L n (bs ++ cs) = layoutAll L n bs ++ layoutAll L n cs := by
  induction bs with
  | nil => rw [layoutAll, List.nil_append, List.nil_append]
  | cons b bs ih => rw [List.cons_append, layoutAll, ih, layoutAll, List.append_assoc]

theorem leavesAll_append (path : List ν) (bs cs : List (Block ν α)) :
    leavesAll path (bs ++ cs) = leavesAll path bs ++ leavesAll path cs := by
  induction bs with
  | nil => rw [leavesAll, List.nil_append, List.nil_append]
  | cons b bs ih => rw [List.cons_append, leavesAll, ih, leavesAll, List.append_assoc]

end Block

end Lasagne.Lang
