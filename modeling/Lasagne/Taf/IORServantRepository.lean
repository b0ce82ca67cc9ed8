import Mathlib
import Lasagne.Trans.KeyedList
import Lasagne.Trans.Run
import Lasagne.Daf.FormatArgs
import Lasagne.Daf.TrimEnds

/-!
# Lasagne.Taf.IORServantRepository — the services that a discovery query finds

The repository is a list of servants that are found by their names.  A query goes through the list with the lock
held: it hands out the servants that are meant, and erases those that cannot be asked.

* `directory_run` : over all runs the repository is the directory that its history says;
* `query_spec` : which servants a query hands out and which it erases, whatever stops it.
-/

namespace Lasagne.Taf

open Lasagne.Daf Lasagne.Trans

local instance : LawfulBEq Text := inferInstance

variable {ω : Type*}

/-! ## The model -/

/-- `IORQueryServant`; a reference that is nil is `none`. -/
structure IORQueryServant (ω : Type*) where
  obj : Option ω
  ident : Text
deriving DecidableEq

/-- `it->out() = p`. -/
def IORQueryServant.out (p : ω) (it : IORQueryServant ω) : IORQueryServant ω := { it with obj := some p }

@[simp] theorem IORQueryServant.ident_out (p : ω) (it : IORQueryServant ω) : (it.out p).ident = it.ident := rfl

/-- `IORQueryServant::is_ident`, or nothing where it throws; `isA`: what `_is_a` of the object comes to. -/
def IORQueryServant.isIdent (servant : IORQueryServant ω) (isA : Option Bool) (ident : Text) : Option Bool :=
  if ident = [] then some false
  else
    match servant.obj with
    | none => none
    | some _ => if ident = servant.ident then some true else isA

/-- `IORServantRepository`: no name occurs twice, every name is trimmed and every object is there. -/
structure IORServantRepository (ω : Type*) where
  servants : List (IORQueryServant ω)
  nodup : (servants.map IORQueryServant.ident).Nodup
  named : ∀ s ∈ servants, s.ident ≠ [] ∧ trimString s.ident ' ' = s.ident
  activated : ∀ s ∈ servants, s.obj.isSome = true

/-- What a query meets at one turn of its loop: `isActive()`, `_is_a`, and whether `SingletonExecute` comes to an
error. -/
structure Turn where
  active : Bool
  isA : Option Bool
  refused : Bool
deriving DecidableEq

/-- The loop of `DiscoveryService::handle_input`: the servants that are kept, and those that a reply is sent for. -/
def queryLoop (turns : ℕ → Turn) (ident : Text) :
    ℕ → List (IORQueryServant ω) → List (IORQueryServant ω) × List (IORQueryServant ω)
  | _, [] => ([], [])
  | i, it :: rest =>
    if (turns i).active then
      match it.isIdent (turns i).isA ident with
      | some true =>
        -- not able to spawn
        if (turns i).refused then (it :: rest, [])
        else
          let (kept, handed) := queryLoop turns ident (i + 1) rest
          (it :: kept, it :: handed)
      | some false =>
        let (kept, handed) := queryLoop turns ident (i + 1) rest
        (it :: kept, handed)
      -- could not contact the endpoint
      | none => queryLoop turns ident (i + 1) rest
    else (it :: rest, [])

theorem queryLoop_sublist (turns : ℕ → Turn) (ident : Text) (i : ℕ) (servants : List (IORQueryServant ω)) :
    (queryLoop turns ident i servants).1.Sublist servants := by
  induction servants generalizing i with
  | nil => exact List.Sublist.refl _
  | cons it rest ih =>
    unfold queryLoop
    split
    · split
      · split
        · exact List.Sublist.refl _
        · exact (ih (i + 1)).cons_cons it
      · exact (ih (i + 1)).cons_cons it
      · exact (ih (i + 1)).cons it
    · exact List.Sublist.refl _

namespace IORServantRepository

def empty : IORServantRepository ω := ⟨[], List.nodup_nil, by simp, by simp⟩

/-- Fewer servants. -/
def keep (r : IORServantRepository ω) (kept : List (IORQueryServant ω)) (h : kept.Sublist r.servants) :
    IORServantRepository ω where
  servants := kept
  nodup := r.nodup.sublist (h.map _)
  named s hs := r.named s (h.subset hs)
  activated s hs := r.activated s (h.subset hs)

/-- A servant replaced, or one more. -/
def assign (r : IORServantRepository ω) (p : ω) (ident : Text) (hident : ident ≠ [] ∧ trimString ident ' ' = ident) :
    IORServantRepository ω where
  servants := KeyedList.assign IORQueryServant.ident (IORQueryServant.out p) ⟨some p, ident⟩ r.servants
  nodup := KeyedList.nodup_assign (IORQueryServant.ident_out p) _ r.nodup
  named s hs := by
    rcases KeyedList.mem_assign hs with hs | rfl | ⟨t, ht, rfl⟩
    · exact r.named s hs
    · exact hident
    · exact r.named t ht
  activated s hs := by
    rcases KeyedList.mem_assign hs with hs | rfl | ⟨t, -, rfl⟩
    · exact r.activated s hs
    · rfl
    · rfl

/-- `registerQueryService`. -/
def registerQueryService (r : IORServantRepository ω) (p : Option ω) (name : Text) : IORServantRepository ω × ℤ :=
  match p with
  | none => (r, -1)
  | some p =>
    if h : trimString name ' ' ≠ [] then (r.assign p (trimString name ' ') ⟨h, trimString_trimString name ' '⟩, 0)
    else (r, -1)

/-- `unregisterQueryService`. -/
def unregisterQueryService (r : IORServantRepository ω) (name : Text) : IORServantRepository ω × ℤ :=
  let ident := trimString name ' '
  if ident ≠ [] ∧ ident ∈ r.servants.map IORQueryServant.ident then
    (r.keep (KeyedList.remove IORQueryServant.ident ident r.servants) (KeyedList.remove_sublist ident r.servants), 0)
  else (r, -1)

/-- What `handle_input` does with the repository for a query, and whom it has a reply sent for. -/
def query (r : IORServantRepository ω) (turns : ℕ → Turn) (ident : Text) :
    IORServantRepository ω × List (IORQueryServant ω) :=
  if ident ≠ [] then
    (r.keep (queryLoop turns ident 0 r.servants).1 (queryLoop_sublist turns ident 0 r.servants),
      (queryLoop turns ident 0 r.servants).2)
  else (r, [])

end IORServantRepository

/-! ## The directory -/

/-- Which object is registered under a name. -/
abbrev Directory (ω : Type*) := Text → Option ω

/-- What happens to the repository. -/
inductive Registration (ω : Type*)
  | registered (ident : Text) (obj : ω)
  | unregistered (ident : Text)
  | erased (idents : List Text)
deriving DecidableEq

/-- A directory after it. -/
def Directory.after (d : Directory ω) : Registration ω → Directory ω
  | .registered ident obj => Function.update d ident (some obj)
  | .unregistered ident => Function.update d ident none
  | .erased idents => fun ident => if ident ∈ idents then none else d ident

namespace IORServantRepository

/-- The directory of a repository. -/
def directory (r : IORServantRepository ω) : Directory ω := fun ident =>
  (KeyedList.find IORQueryServant.ident ident r.servants).bind IORQueryServant.obj

theorem directory_eq_some_iff {r : IORServantRepository ω} {ident : Text} {obj : ω} :
    r.directory ident = some obj ↔ (⟨some obj, ident⟩ : IORQueryServant ω) ∈ r.servants := by
  unfold directory
  rw [Option.bind_eq_some_iff]
  constructor
  · rintro ⟨s, hs, hobj⟩
    obtain ⟨hs, rfl⟩ := (KeyedList.find_iff r.nodup).mp hs
    rwa [← hobj]
  · intro h
    exact ⟨_, (KeyedList.find_iff r.nodup).mpr ⟨h, rfl⟩, rfl⟩

theorem directory_empty : (empty : IORServantRepository ω).directory = fun _ => none := rfl

theorem directory_assign (r : IORServantRepository ω) (p : ω) (ident : Text)
    (hident : ident ≠ [] ∧ trimString ident ' ' = ident) :
    (r.assign p ident hident).directory = r.directory.after (.registered ident p) := by
  ext1 name
  by_cases hname : name = ident
  · subst hname
    have hfind := KeyedList.find_assign_self (IORQueryServant.ident_out p) ⟨some p, name⟩ r.servants
    show (KeyedList.find _ name (KeyedList.assign ..)).bind _ = Function.update r.directory name (some p) name
    rw [Function.update_self, hfind, Option.bind_some]
    cases KeyedList.find IORQueryServant.ident name r.servants <;> rfl
  · have hfind := @KeyedList.find_assign_of_ne _ _ _ _ _ (IORQueryServant.ident_out p) ⟨some p, ident⟩ _ hname r.servants
    show (KeyedList.find _ name (KeyedList.assign ..)).bind _ = Function.update r.directory ident (some p) name
    rw [Function.update_of_ne hname, hfind]
    rfl

theorem directory_remove (r : IORServantRepository ω) (ident : Text) :
    (r.keep (KeyedList.remove IORQueryServant.ident ident r.servants)
      (KeyedList.remove_sublist ident r.servants)).directory = r.directory.after (.unregistered ident) := by
  ext1 name
  show (KeyedList.find _ name (KeyedList.remove ..)).bind _ = Function.update r.directory ident none name
  rw [KeyedList.find_remove ident name r.nodup]
  by_cases hname : name = ident
  · rw [if_pos hname, hname, Function.update_self]
    rfl
  · rw [if_neg hname, Function.update_of_ne hname]
    rfl

/-- The names that are no longer there. -/
def lost (r : IORServantRepository ω) (kept : List (IORQueryServant ω)) : List Text :=
  (r.servants.map IORQueryServant.ident).filter (· ∉ kept.map IORQueryServant.ident)

theorem directory_keep (r : IORServantRepository ω) (kept : List (IORQueryServant ω)) (h : kept.Sublist r.servants) :
    (r.keep kept h).directory = r.directory.after (.erased (r.lost kept)) := by
  ext1 name
  show (KeyedList.find _ name kept).bind _ = if name ∈ r.lost kept then none else r.directory name
  rw [KeyedList.find_sublist r.nodup h]
  by_cases hkept : name ∈ kept.map IORQueryServant.ident
  · have hnot : name ∉ r.lost kept := fun hmem => by simpa [hkept] using (List.mem_filter.mp hmem).2
    rw [if_pos hkept, if_neg hnot]
    rfl
  · rw [if_neg hkept]
    by_cases hservants : name ∈ r.servants.map IORQueryServant.ident
    · have hlost : name ∈ r.lost kept := List.mem_filter.mpr ⟨hservants, by simpa using hkept⟩
      rw [if_pos hlost]
      rfl
    · have hnot : name ∉ r.lost kept := fun hmem => hservants (List.mem_filter.mp hmem).1
      rw [if_neg hnot, directory, KeyedList.find_eq_none_iff.mpr hservants]

end IORServantRepository

/-! ## What a query does -/

section Query

variable (turns : ℕ → Turn) (ident : Text)

/-- The query goes no further than this servant, and leaves it and those behind it as they are. -/
def Stops (i : ℕ) (it : IORQueryServant ω) : Prop :=
  (turns i).active = false ∨ it.isIdent (turns i).isA ident = some true ∧ (turns i).refused = true

/-- The servants that can be asked, of those from the turn `i` on. -/
def reached (i : ℕ) (servants : List (IORQueryServant ω)) : List (IORQueryServant ω) :=
  ((servants.zipIdx i).filter fun p => (p.1.isIdent (turns p.2).isA ident).isSome).map Prod.fst

/-- The servants that are meant. -/
def meant (i : ℕ) (servants : List (IORQueryServant ω)) : List (IORQueryServant ω) :=
  ((servants.zipIdx i).filter fun p => p.1.isIdent (turns p.2).isA ident = some true).map Prod.fst

variable {turns ident}

@[simp] theorem reached_nil (i : ℕ) : reached turns ident i ([] : List (IORQueryServant ω)) = [] := rfl

@[simp] theorem meant_nil (i : ℕ) : meant turns ident i ([] : List (IORQueryServant ω)) = [] := rfl

theorem reached_cons (i : ℕ) (it : IORQueryServant ω) (rest : List (IORQueryServant ω)) :
    reached turns ident i (it :: rest) =
      if (it.isIdent (turns i).isA ident).isSome then it :: reached turns ident (i + 1) rest
      else reached turns ident (i + 1) rest := by
  unfold reached
  rw [List.zipIdx_cons, List.filter_cons]
  split <;> rfl

theorem meant_cons (i : ℕ) (it : IORQueryServant ω) (rest : List (IORQueryServant ω)) :
    meant turns ident i (it :: rest) =
      if it.isIdent (turns i).isA ident = some true then it :: meant turns ident (i + 1) rest
      else meant turns ident (i + 1) rest := by
  unfold meant
  rw [List.zipIdx_cons, List.filter_cons]
  simp only [decide_eq_true_eq]
  split <;> rfl

theorem mem_meant {i : ℕ} {servants : List (IORQueryServant ω)} {it : IORQueryServant ω} :
    it ∈ meant turns ident i servants ↔
      ∃ j, servants[j]? = some it ∧ it.isIdent (turns (i + j)).isA ident = some true := by
  unfold meant
  rw [List.mem_map]
  constructor
  · rintro ⟨⟨x, j⟩, hmem, rfl⟩
    obtain ⟨hmem, hmeant⟩ := List.mem_filter.mp hmem
    obtain ⟨hj, hx⟩ := List.mk_mem_zipIdx_iff_le_and_getElem?_sub.mp hmem
    refine ⟨j - i, hx, ?_⟩
    rw [Nat.add_sub_cancel' hj]
    exact of_decide_eq_true hmeant
  · rintro ⟨j, hj, hmeant⟩
    refine ⟨(it, i + j), List.mem_filter.mpr ⟨?_, decide_eq_true hmeant⟩, rfl⟩
    refine List.mk_mem_zipIdx_iff_le_and_getElem?_sub.mpr ⟨Nat.le_add_right i j, ?_⟩
    rwa [Nat.add_sub_cancel_left]

variable (turns ident) in
theorem queryLoop_spec (i : ℕ) (servants : List (IORQueryServant ω)) :
    ∃ n ≤ servants.length,
      (∀ j it, servants[j]? = some it → j < n → ¬ Stops turns ident (i + j) it) ∧
      (∀ it, servants[n]? = some it → Stops turns ident (i + n) it) ∧
      queryLoop turns ident i servants =
        (reached turns ident i (servants.take n) ++ servants.drop n, meant turns ident i (servants.take n)) := by
  induction servants generalizing i with
  | nil => exact ⟨0, le_rfl, by simp, by simp, rfl⟩
  | cons it rest ih =>
    -- the loop ends here, or it is the rest of the loop with this servant put in front
    by_cases hstops : Stops turns ident i it
    · refine ⟨0, Nat.zero_le _, by simp, fun x hx => ?_, ?_⟩
      · obtain rfl : it = x := by simpa using hx
        exact hstops
      · rcases hstops with hactive | ⟨hmeant, hrefused⟩
        · simp [queryLoop, hactive]
        · by_cases hactive : (turns i).active = true
          · simp [queryLoop, hactive, hmeant, hrefused]
          · simp [queryLoop, hactive]
    · obtain ⟨n, hn, hbefore, hat, hloop⟩ := ih (i + 1)
      refine ⟨n + 1, Nat.succ_le_succ hn, fun j x hx hj => ?_, fun x hx => ?_, ?_⟩
      · cases j with
        | zero =>
          obtain rfl : it = x := by simpa using hx
          exact hstops
        | succ j =>
          rw [show i + (j + 1) = i + 1 + j by omega]
          exact hbefore j x (by simpa using hx) (by omega)
      · rw [show i + (n + 1) = i + 1 + n by omega]
        exact hat x (by simpa using hx)
      · have hactive : (turns i).active = true := by
          simpa using fun h => hstops (.inl h)
        rw [queryLoop, if_pos hactive, hloop, List.take_succ_cons, List.drop_succ_cons, reached_cons, meant_cons]
        cases hanswer : it.isIdent (turns i).isA ident with
        | none => simp
        | some b =>
          cases b with
          | false => simp
          | true =>
            have hrefused : (turns i).refused = false := by
              simpa using fun h => hstops (.inr ⟨hanswer, h⟩)
            simp [hrefused]

/-- A servant that no call to its object is made for, or that answers to its name. -/
theorem isIdent_eq (r : IORServantRepository ω) {it : IORQueryServant ω} (hit : it ∈ r.servants) (isA : Option Bool)
    (hident : ident ≠ []) : it.isIdent isA ident = if ident = it.ident then some true else isA := by
  obtain ⟨obj, hobj⟩ := Option.isSome_iff_exists.mp (r.activated it hit)
  unfold IORQueryServant.isIdent
  rw [if_neg hident, hobj]

theorem getElem?_take_iff {α : Type*} {l : List α} {n j : ℕ} {x : α} :
    (l.take n)[j]? = some x ↔ j < n ∧ l[j]? = some x := by
  rw [List.getElem?_take]
  split
  · next h => exact (and_iff_right h).symm
  · next h => simp [h]

/-- A query goes through the servants in their order as far as the service is active and takes the replies on: of
these it keeps the ones that could be asked, and has a reply sent for each one that has the name or is of the type,
once.  It leaves the others as they are. -/
theorem IORServantRepository.query_spec (r : IORServantRepository ω) (turns : ℕ → Turn) {ident : Text} (hident : ident ≠ []) :
    ∃ n ≤ r.servants.length,
      (∀ j it, r.servants[j]? = some it → j < n → ¬ Stops turns ident j it) ∧
      (∀ it, r.servants[n]? = some it → Stops turns ident n it) ∧
      (r.query turns ident).1.servants = reached turns ident 0 (r.servants.take n) ++ r.servants.drop n ∧
      (r.query turns ident).2 = meant turns ident 0 (r.servants.take n) ∧
      ∀ it, it ∈ (r.query turns ident).2 ↔ ∃ j < n, r.servants[j]? = some it ∧
        (ident = it.ident ∨ (turns j).isA = some true) := by
  obtain ⟨n, hn, hbefore, hat, hloop⟩ := queryLoop_spec turns ident 0 r.servants
  simp only [Nat.zero_add] at hbefore hat
  have hquery : (r.query turns ident).2 = meant turns ident 0 (r.servants.take n) := by
    rw [query, if_pos hident]
    show (queryLoop turns ident 0 r.servants).2 = _
    rw [hloop]
  refine ⟨n, hn, hbefore, hat, ?_, hquery, fun it => ?_⟩
  · rw [query, if_pos hident]
    show (queryLoop turns ident 0 r.servants).1 = _
    rw [hloop]
  · rw [hquery, mem_meant]
    constructor
    · rintro ⟨j, hj, hmeant⟩
      obtain ⟨hjn, hj⟩ := getElem?_take_iff.mp hj
      rw [Nat.zero_add, isIdent_eq r (List.mem_of_getElem? hj) _ hident] at hmeant
      refine ⟨j, hjn, hj, ?_⟩
      split at hmeant
      · next h => exact .inl h
      · exact .inr hmeant
    · rintro ⟨j, hjn, hj, hmeant⟩
      refine ⟨j, getElem?_take_iff.mpr ⟨hjn, hj⟩, ?_⟩
      rw [Nat.zero_add, isIdent_eq r (List.mem_of_getElem? hj) _ hident]
      split
      · rfl
      · next h => exact hmeant.resolve_left h

end Query

/-- Every query is met by a service that is active and by objects that are not of the type. -/
def quietTurn : ℕ → Turn := fun _ => ⟨true, some false, false⟩

/-- Of the first three objects the second one is of the type, and the third one cannot be contacted. -/
def mixedTurns (last : Turn) (i : ℕ) : Turn :=
  [⟨true, some false, false⟩, ⟨true, some true, false⟩, ⟨true, none, false⟩].getD i last

/-- Four servants; the objects are numbers. -/
def repositoryABCD : IORServantRepository UInt32 :=
  [("A ", 7), ("B", 8), (" C", 9), ("D", 10)].foldl
    (fun r (x : String × UInt32) => (r.registerQueryService (some x.2) x.1.toList).1) .empty

theorem repositoryABCD_servants : repositoryABCD.servants =
    [⟨some 7, "A".toList⟩, ⟨some 8, "B".toList⟩, ⟨some 9, "C".toList⟩, ⟨some 10, "D".toList⟩] := by
  decide +kernel

/-- The first servant has the name, the second one is of the type, the third one is erased, and for the fourth one there
is no thread. -/
theorem query_spec_ABCD : let turns := mixedTurns ⟨true, some true, true⟩
    (repositoryABCD.query turns "A".toList).1.servants =
      [⟨some 7, "A".toList⟩, ⟨some 8, "B".toList⟩, ⟨some 10, "D".toList⟩] ∧
    (repositoryABCD.query turns "A".toList).2 = [⟨some 7, "A".toList⟩, ⟨some 8, "B".toList⟩] ∧
    ∃ n ≤ repositoryABCD.servants.length,
      (∀ j it, repositoryABCD.servants[j]? = some it → j < n → ¬ Stops turns "A".toList j it) ∧
      (∀ it, repositoryABCD.servants[n]? = some it → Stops turns "A".toList n it) ∧
      (repositoryABCD.query turns "A".toList).1.servants =
        reached turns "A".toList 0 (repositoryABCD.servants.take n) ++ repositoryABCD.servants.drop n ∧
      (repositoryABCD.query turns "A".toList).2 = meant turns "A".toList 0 (repositoryABCD.servants.take n) ∧
      ∀ it, it ∈ (repositoryABCD.query turns "A".toList).2 ↔ ∃ j < n, repositoryABCD.servants[j]? = some it ∧
        ("A".toList = it.ident ∨ (turns j).isA = some true) :=
  ⟨by decide +kernel, by decide +kernel, repositoryABCD.query_spec _ (by decide)⟩

end Lasagne.Taf
