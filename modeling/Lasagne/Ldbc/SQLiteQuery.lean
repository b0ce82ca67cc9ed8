import Lasagne.Trans.Run
import Mathlib.Logic.Function.Basic
import Mathlib.Order.Nat

/-!
# Lasagne.Ldbc.SQLiteQuery — how often a statement is executed

`LDBC::SQLite::Query` has a statement stepped before it lets go of it, whether it was stepped before or not.  The
statements here return no rows, so that one step executes them.

* `Ledger` : what a statement is owed, over every `getNext` and every `_finalize`;
* `once_iff` : a statement that was let go of was executed once exactly if `getNext` was never called for it;
* `twice` : it is executed again when it is let go of.
-/

namespace Lasagne.Ldbc.SQLiteQuery

open Lasagne.Trans

/-! ## The model -/

/-- What `execute_query` is called with: a statement that returns no rows, what is none, what has nothing in it but
a comment, and nothing. -/
inductive Text
  | statement
  | illFormed
  | comment
  | empty
  deriving DecidableEq

/-- What a call ends with; `getNext` returns false where there is no row. -/
inductive Reply
  | ok
  | noRow
  | illegalUse
  | illegalArgument
  deriving DecidableEq

/-- A `Query` and its statement. -/
structure Query where
  handle_ : Option ℕ
  deriving DecidableEq

/-- A connection, the queries that there are and the list that it keeps of them, and how often each of the statements
has been executed. -/
structure World where
  connected : Bool
  query : ℕ → Option Query
  queries : List ℕ
  nextQuery : ℕ
  next : ℕ
  executed : ℕ → ℕ

namespace World

/-- `sqlite3_step`: a statement that is done starts again. -/
def sqlite3Step (w : World) (s : ℕ) : World := { w with executed := Function.update w.executed s (w.executed s + 1) }

/-- `_finalize(handle_inout())`. -/
def finalize (w : World) (q : ℕ) : World :=
  match w.query q with
  | some ⟨some s⟩ => { w.sqlite3Step s with query := Function.update w.query q (some ⟨none⟩) }
  | _ => w

/-- `sqlite3_prepare_v2`, for a query that has no statement. -/
def prepare (w : World) (q : ℕ) : Text → World × Reply
  | .statement =>
    if w.connected then
      ({ w with query := Function.update w.query q (some ⟨some w.next⟩), next := w.next + 1 }, .ok)
    else (w, .illegalUse)
  | .comment => (w, if w.connected then .ok else .illegalUse)
  | .illFormed => (w, .illegalUse)
  | .empty => (w, .illegalArgument)

/-- `Query::execute_query`, which lets go of the statement before it prepares another one. -/
def executeQuery (w : World) (q : ℕ) (t : Text) : World × Reply := (w.finalize q).prepare q t

/-- `Query::~Query`. -/
def release (w : World) (q : ℕ) : World :=
  { w.finalize q with
    query := Function.update (w.finalize q).query q none
    queries := w.queries.erase q }

/-- A `Query`, in the list of the connection. -/
def newQuery (w : World) : World :=
  { w with
    query := Function.update w.query w.nextQuery (some ⟨none⟩)
    queries := w.queries ++ [w.nextQuery]
    nextQuery := w.nextQuery + 1 }

/-- `Connection::execute_query`: the query goes when there is an exception. -/
def connectionExecute (w : World) (t : Text) : World × Reply :=
  match w.newQuery.executeQuery w.nextQuery t with
  | (w', .ok) => (w', .ok)
  | (w', r) => (w'.release w.nextQuery, r)

/-- The loop of `Connection::close`, over the list from the back. -/
def closeLoop : List ℕ → World → World
  | [], w => w
  | q :: rest, w => closeLoop rest (w.finalize q)

def close (w : World) : World := { closeLoop w.queries.reverse w with queries := [], connected := false }

end World

inductive Act
  | connectionExecute (t : Text)
  | execute (q : ℕ) (t : Text)
  | getNext (q : ℕ)
  | release (q : ℕ)
  | close
  deriving DecidableEq

def step (w : World) : Act → Option (World × List Reply)
  | .connectionExecute t => some ((w.connectionExecute t).1, [(w.connectionExecute t).2])
  | .execute q t =>
    match w.query q with
    | some _ => some ((w.executeQuery q t).1, [(w.executeQuery q t).2])
    | none => none
  | .getNext q =>
    match w.query q with
    | some ⟨some s⟩ => some (w.sqlite3Step s, [.noRow])
    | some ⟨none⟩ => some (w, [.illegalUse])
    | none => none
  | .release q =>
    match w.query q with
    | some _ => some (w.release q, [])
    | none => none
  | .close => some (w.close, [])

/-- A connection that is open. -/
def machine : Machine World Act Reply where
  init := ⟨true, fun _ => none, [], 0, 0, fun _ => 0⟩
  step := step

/-! ## The ledger -/

variable {w w' : World} {c : ℕ → ℕ} {q q' s : ℕ} {a : Act} {es : List Reply}

/-- Some query has the statement. -/
def Held (w : World) (s : ℕ) : Prop := ∃ q, w.query q = some ⟨some s⟩

/-- With `c` calls of `getNext` for each statement: one that a query has was executed so many times, and one that was
let go of once more. -/
structure Ledger (w : World) (c : ℕ → ℕ) : Prop where
  held {s : ℕ} : Held w s → s < w.next ∧ w.executed s = c s
  past {s : ℕ} : s < w.next → ¬ Held w s → w.executed s = c s + 1
  fresh {s : ℕ} : w.next ≤ s → w.executed s = 0 ∧ c s = 0
  unique {q q' s : ℕ} : w.query q = some ⟨some s⟩ → w.query q' = some ⟨some s⟩ → q = q'
  listed {q : ℕ} : w.connected = true → w.query q ≠ none → q ∈ w.queries
  closed {q s : ℕ} : w.connected = false → w.query q ≠ some ⟨some s⟩
  used {q : ℕ} : w.query q ≠ none → q < w.nextQuery

namespace World

@[simp] theorem finalize_next (w : World) (q : ℕ) : (w.finalize q).next = w.next := by
  unfold finalize
  split <;> rfl

@[simp] theorem finalize_queries (w : World) (q : ℕ) : (w.finalize q).queries = w.queries := by
  unfold finalize
  split <;> rfl

@[simp] theorem finalize_nextQuery (w : World) (q : ℕ) : (w.finalize q).nextQuery = w.nextQuery := by
  unfold finalize
  split <;> rfl

@[simp] theorem finalize_connected (w : World) (q : ℕ) : (w.finalize q).connected = w.connected := by
  unfold finalize
  split <;> rfl

theorem finalize_of_held (h : w.query q = some ⟨some s⟩) :
    w.finalize q = { w.sqlite3Step s with query := Function.update w.query q (some ⟨none⟩) } := by
  unfold finalize
  rw [h]

theorem finalize_of_idle (h : ∀ s, w.query q ≠ some ⟨some s⟩) : w.finalize q = w := by
  unfold finalize
  split
  · next s hs => exact absurd hs (h s)
  · rfl

/-- A query has no statement when it was let go of. -/
theorem finalize_query_self (w : World) (q s : ℕ) : (w.finalize q).query q ≠ some ⟨some s⟩ := by
  by_cases h : ∃ t, w.query q = some ⟨some t⟩
  · obtain ⟨t, ht⟩ := h
    rw [finalize_of_held ht]
    show Function.update w.query q (some ⟨none⟩) q ≠ some ⟨some s⟩
    rw [Function.update_self]
    exact fun habs => (by cases habs)
  · rw [finalize_of_idle fun t ht => h ⟨t, ht⟩]
    exact fun hs => h ⟨s, hs⟩

theorem finalize_query_ne (w : World) {k : ℕ} (hk : k ≠ q) : (w.finalize q).query k = w.query k := by
  unfold finalize
  split
  · exact Function.update_of_ne hk ..
  · rfl

theorem finalize_query_eq_none {k : ℕ} : (w.finalize q).query k = none ↔ w.query k = none := by
  by_cases hk : k = q
  · subst hk
    by_cases h : ∃ t, w.query k = some ⟨some t⟩
    · obtain ⟨t, ht⟩ := h
      rw [finalize_of_held ht, ht]
      show Function.update w.query k (some ⟨none⟩) k = none ↔ _
      rw [Function.update_self]
      exact iff_of_false (fun habs => (by cases habs)) (fun habs => (by cases habs))
    · rw [finalize_of_idle fun t ht => h ⟨t, ht⟩]
  · rw [finalize_query_ne w hk]

end World

open World

/-- Only what the queries have, and where they are, counts. -/
theorem Ledger.congr (h : Ledger w c) (hnext : w'.next = w.next) (hexec : w'.executed = w.executed)
    (hquery : ∀ {k s}, w'.query k = some ⟨some s⟩ ↔ w.query k = some ⟨some s⟩)
    (hlisted : ∀ {k}, w'.connected = true → w'.query k ≠ none → k ∈ w'.queries)
    (hclosed : ∀ {k s}, w'.connected = false → w.query k ≠ some ⟨some s⟩)
    (hused : ∀ {k}, w'.query k ≠ none → k < w'.nextQuery) : Ledger w' c := by
  have hheld {s : ℕ} : Held w' s ↔ Held w s := exists_congr fun k => hquery
  refine ⟨fun hs => ?_, fun hlt hs => ?_, fun hle => ?_, fun hk hk' => ?_, hlisted, fun hconn hk => ?_, hused⟩
  · rw [hnext, hexec]
    exact h.held (hheld.mp hs)
  · rw [hexec]
    exact h.past (hnext ▸ hlt) fun hw => hs (hheld.mpr hw)
  · rw [hexec]
    exact h.fresh (hnext ▸ hle)
  · exact h.unique (hquery.mp hk) (hquery.mp hk')
  · exact hclosed hconn (hquery.mp hk)

theorem held_of_finalize (hs : Held (w.finalize q) s) : Held w s := by
  obtain ⟨k, hk⟩ := hs
  by_cases hkq : k = q
  · exact absurd (hkq ▸ hk) (finalize_query_self w q s)
  · exact ⟨k, (finalize_query_ne w hkq).symm.trans hk⟩

/-- What a query lets go of no other query has. -/
theorem Ledger.not_held_finalize (h : Ledger w c) (hq : w.query q = some ⟨some s⟩) : ¬ Held (w.finalize q) s := by
  rintro ⟨k, hk⟩
  by_cases hkq : k = q
  · exact finalize_query_self w q s (hkq ▸ hk)
  · rw [finalize_query_ne w hkq] at hk
    exact hkq (h.unique hk hq)

theorem Ledger.finalize (h : Ledger w c) (q : ℕ) : Ledger (w.finalize q) c := by
  by_cases hidle : ∃ t, w.query q = some ⟨some t⟩
  · obtain ⟨t, ht⟩ := hidle
    have hexec {s : ℕ} : (w.finalize q).executed s = if s = t then w.executed t + 1 else w.executed s := by
      rw [finalize_of_held ht]
      exact Function.update_apply ..
    have hkept {s : ℕ} (hne : s ≠ t) (hs : Held w s) : Held (w.finalize q) s := by
      obtain ⟨k, hk⟩ := hs
      have hkq : k ≠ q := by
        rintro rfl
        exact hne (Option.some.inj (Query.mk.inj (Option.some.inj (hk.symm.trans ht))))
      exact ⟨k, (finalize_query_ne w hkq).trans hk⟩
    refine ⟨fun {s} hs => ?_, fun {s} hlt hs => ?_, fun {s} hle => ?_, fun {k k' s} hk hk' => ?_, fun {k} hconn hk => ?_,
      fun {k s} hconn hk => ?_, fun {k} hk => ?_⟩
    · have hne : s ≠ t := by
        rintro rfl
        exact h.not_held_finalize ht hs
      rw [finalize_next, hexec, if_neg hne]
      exact h.held (held_of_finalize hs)
    · rw [finalize_next] at hlt
      rw [hexec]
      split
      · next heq => rw [heq, (h.held ⟨q, ht⟩).2]
      · next hne => exact h.past hlt fun hw => hs (hkept hne hw)
    · rw [finalize_next] at hle
      have hlt := (h.held ⟨q, ht⟩).1
      rw [hexec, if_neg (by omega)]
      exact h.fresh hle
    · have hkq : k ≠ q := fun heq => finalize_query_self w q s (heq ▸ hk)
      have hkq' : k' ≠ q := fun heq => finalize_query_self w q s (heq ▸ hk')
      rw [finalize_query_ne w hkq] at hk
      rw [finalize_query_ne w hkq'] at hk'
      exact h.unique hk hk'
    · rw [finalize_connected] at hconn
      rw [finalize_queries]
      exact h.listed hconn fun hnone => hk (finalize_query_eq_none.mpr hnone)
    · rw [finalize_connected] at hconn
      exact h.closed hconn ht
    · rw [finalize_nextQuery]
      exact h.used fun hnone => hk (finalize_query_eq_none.mpr hnone)
  · rw [finalize_of_idle fun t ht => hidle ⟨t, ht⟩]
    exact h

/-- A query without a statement gets one. -/
theorem Ledger.prepare (h : Ledger w c) (hq : w.query q ≠ none) (hidle : ∀ s, w.query q ≠ some ⟨some s⟩) (t : Text) :
    Ledger (w.prepare q t).1 c := by
  cases t with
  | statement =>
    unfold World.prepare
    dsimp only
    split
    · next hconn =>
      have hquery {k s : ℕ} : Function.update w.query q (some ⟨some w.next⟩) k = some ⟨some s⟩ ↔
          (k = q ∧ s = w.next) ∨ w.query k = some ⟨some s⟩ := by
        by_cases hk : k = q
        · subst hk
          rw [Function.update_self]
          constructor
          · intro heq
            exact Or.inl ⟨rfl, (Option.some.inj (Query.mk.inj (Option.some.inj heq))).symm⟩
          · rintro (⟨-, rfl⟩ | heq)
            · rfl
            · exact absurd heq (hidle s)
        · rw [Function.update_of_ne hk]
          exact ⟨Or.inr, fun hor => hor.resolve_left fun heq => hk heq.1⟩
      have hsome {k : ℕ} (hk : Function.update w.query q (some ⟨some w.next⟩) k ≠ none) : w.query k ≠ none := by
        by_cases hkq : k = q
        · exact hkq ▸ hq
        · rwa [Function.update_of_ne hkq] at hk
      refine ⟨fun {s} hs => ?_, fun {s} hlt hs => ?_, fun {s} hle => ?_, fun {k k' s} hk hk' => ?_,
        fun {k} _ hk => h.listed hconn (hsome hk), fun {k s} hno _ => absurd (hconn.symm.trans hno) (by decide), fun {k} hk => ?_⟩
      · obtain ⟨k, hk⟩ := hs
        rcases hquery.mp hk with ⟨-, rfl⟩ | hold
        · have hfresh := h.fresh le_rfl
          exact ⟨Nat.lt_succ_self _, hfresh.1.trans hfresh.2.symm⟩
        · have hheld := h.held ⟨k, hold⟩
          exact ⟨Nat.lt_succ_of_lt hheld.1, hheld.2⟩
      · have hne : s ≠ w.next := fun heq => hs ⟨q, hquery.mpr (Or.inl ⟨rfl, heq⟩)⟩
        have hlt' : s < w.next + 1 := hlt
        refine h.past (by omega) fun ⟨k, hk⟩ => hs ⟨k, hquery.mpr (Or.inr hk)⟩
      · exact h.fresh (Nat.le_of_succ_le hle)
      · rcases hquery.mp hk with ⟨rfl, rfl⟩ | hold
        · rcases hquery.mp hk' with ⟨rfl, -⟩ | hold'
          · rfl
          · exact absurd (h.held ⟨k', hold'⟩).1 (lt_irrefl _)
        · rcases hquery.mp hk' with ⟨rfl, rfl⟩ | hold'
          · exact absurd (h.held ⟨k, hold⟩).1 (lt_irrefl _)
          · exact h.unique hold hold'
      · exact h.used (hsome hk)
    · exact h
  | comment => exact h
  | illFormed => exact h
  | empty => exact h

theorem Ledger.executeQuery (h : Ledger w c) (hq : w.query q ≠ none) (t : Text) :
    Ledger (w.executeQuery q t).1 c :=
  (h.finalize q).prepare (fun hnone => hq (finalize_query_eq_none.mp hnone)) (finalize_query_self w q) t

theorem Ledger.release (h : Ledger w c) (q : ℕ) : Ledger (w.release q) c := by
  have hfin := h.finalize q
  have hself : (w.release q).query q = none := Function.update_self ..
  have hother {k : ℕ} (hk : k ≠ q) : (w.release q).query k = (w.finalize q).query k := Function.update_of_ne hk ..
  have hsome {k : ℕ} (hk : (w.release q).query k ≠ none) : k ≠ q ∧ (w.finalize q).query k ≠ none := by
    have hkq : k ≠ q := by
      rintro rfl
      exact hk hself
    exact ⟨hkq, fun hnone => hk ((hother hkq).trans hnone)⟩
  refine hfin.congr rfl rfl (fun {k s} => ?_) (fun {k} hconn hk => ?_) hfin.closed fun {k} hk => hfin.used (hsome hk).2
  · by_cases hk : k = q
    · subst hk
      exact iff_of_false (by rw [hself]; exact fun habs => (by cases habs)) (finalize_query_self w k s)
    · rw [hother hk]
  · obtain ⟨hkq, hk'⟩ := hsome hk
    have hmem := hfin.listed hconn hk'
    rw [finalize_queries] at hmem
    exact (List.mem_erase_of_ne hkq).mpr hmem

theorem Ledger.newQuery (h : Ledger w c) : Ledger w.newQuery c := by
  have hnone : w.query w.nextQuery = none := by
    by_contra hne
    exact lt_irrefl _ (h.used hne)
  have hself : w.newQuery.query w.nextQuery = some ⟨none⟩ := Function.update_self ..
  have hother {k : ℕ} (hk : k ≠ w.nextQuery) : w.newQuery.query k = w.query k := Function.update_of_ne hk ..
  refine h.congr rfl rfl (fun {k s} => ?_) (fun {k} hconn hk => ?_) h.closed fun {k} hk => ?_
  · by_cases hk : k = w.nextQuery
    · subst hk
      rw [hself, hnone]
      exact iff_of_false (fun habs => (by cases habs)) (fun habs => (by cases habs))
    · rw [hother hk]
  · show k ∈ w.queries ++ [w.nextQuery]
    by_cases hkn : k = w.nextQuery
    · exact List.mem_append_right _ (List.mem_singleton.mpr hkn)
    · rw [hother hkn] at hk
      exact List.mem_append_left _ (h.listed hconn hk)
  · show k < w.nextQuery + 1
    by_cases hkn : k = w.nextQuery
    · exact hkn ▸ Nat.lt_succ_self _
    · rw [hother hkn] at hk
      exact Nat.lt_succ_of_lt (h.used hk)

theorem Ledger.connectionExecute (h : Ledger w c) (t : Text) : Ledger (w.connectionExecute t).1 c := by
  have hself : w.newQuery.query w.nextQuery = some ⟨none⟩ := Function.update_self ..
  have hthere : w.newQuery.query w.nextQuery ≠ none := by
    rw [hself]
    exact fun habs => (by cases habs)
  have hexec := h.newQuery.executeQuery hthere t
  unfold World.connectionExecute
  split
  · next w' heq =>
    rw [heq] at hexec
    exact hexec
  · next w' r _ heq =>
    rw [heq] at hexec
    exact hexec.release _

/-- `getNext` is counted. -/
theorem Ledger.getNext (h : Ledger w c) (hq : w.query q = some ⟨some s⟩) :
    Ledger (w.sqlite3Step s) (Function.update c s (c s + 1)) := by
  have hexec {u : ℕ} : (w.sqlite3Step s).executed u = if u = s then w.executed s + 1 else w.executed u :=
    Function.update_apply ..
  have hc {u : ℕ} : Function.update c s (c s + 1) u = if u = s then c s + 1 else c u := Function.update_apply ..
  have hs := h.held ⟨q, hq⟩
  refine ⟨fun {u} hu => ?_, fun {u} hlt hu => ?_, fun {u} hle => ?_, h.unique, h.listed, h.closed, h.used⟩
  · have hheld := h.held (show Held w u from hu)
    rw [hexec, hc]
    refine ⟨hheld.1, ?_⟩
    split
    · rw [hs.2]
    · exact hheld.2
  · have hne : u ≠ s := by
      rintro rfl
      exact hu ⟨q, hq⟩
    rw [hexec, hc, if_neg hne, if_neg hne]
    exact h.past hlt hu
  · have hle' : w.next ≤ u := hle
    rw [hexec, hc, if_neg (by omega), if_neg (by omega)]
    exact h.fresh hle'

theorem Ledger.closeLoop (h : Ledger w c) (l : List ℕ) : Ledger (closeLoop l w) c := by
  induction l generalizing w with
  | nil => exact h
  | cons q rest ih => exact ih (h.finalize q)

theorem closeLoop_next (l : List ℕ) (w : World) : (closeLoop l w).next = w.next := by
  induction l generalizing w with
  | nil => rfl
  | cons q rest ih => exact (ih (w.finalize q)).trans (finalize_next w q)

theorem query_of_closeLoop {l : List ℕ} (hq : (closeLoop l w).query q = some ⟨some s⟩) :
    q ∉ l ∧ w.query q = some ⟨some s⟩ := by
  induction l generalizing w with
  | nil => exact ⟨List.not_mem_nil, hq⟩
  | cons k rest ih =>
    obtain ⟨hrest, hfin⟩ := ih hq
    have hne : q ≠ k := fun heq => finalize_query_self w k s (heq ▸ hfin)
    rw [finalize_query_ne w hne] at hfin
    exact ⟨fun hmem => (List.mem_cons.mp hmem).elim hne hrest, hfin⟩

/-- When the connection was closed no query has a statement. -/
theorem Ledger.close_query (h : Ledger w c) (q s : ℕ) : w.close.query q ≠ some ⟨some s⟩ := by
  intro hq
  obtain ⟨hmem, hq'⟩ := query_of_closeLoop hq
  rw [List.mem_reverse] at hmem
  cases hconn : w.connected with
  | false => exact h.closed hconn hq'
  | true => exact hmem (h.listed hconn fun hnone => by cases hq'.symm.trans hnone)

theorem Ledger.close (h : Ledger w c) : Ledger w.close c := by
  have hloop := h.closeLoop w.queries.reverse
  refine hloop.congr rfl rfl Iff.rfl (fun hconn => by cases hconn) (fun {k s} _ => h.close_query k s) hloop.used

/-! ## Steps -/

/-- The step is a `getNext` for the statement. -/
def Act.isNextOf (a : Act) (w : World) (s : ℕ) : Bool :=
  match a with
  | .getNext q => w.query q = some ⟨some s⟩
  | _ => false

@[simp] theorem isNextOf_getNext (w : World) (q s : ℕ) :
    Act.isNextOf (.getNext q) w s = decide (w.query q = some ⟨some s⟩) := rfl

/-- The step is the release of the query, a further `execute_query` on it, or the `close` of its connection. -/
def Act.isEndOf (a : Act) (q : ℕ) : Prop :=
  match a with
  | .release q' => q' = q
  | .execute q' _ => q' = q
  | .close => True
  | _ => False

/-- What a step can do. -/
inductive Move (w : World) : Act → World → Prop
  | connectionExecute {t : Text} : Move w (.connectionExecute t) (w.connectionExecute t).1
  | execute {q : ℕ} {t : Text} : w.query q ≠ none → Move w (.execute q t) (w.executeQuery q t).1
  | getNext {q s : ℕ} : w.query q = some ⟨some s⟩ → Move w (.getNext q) (w.sqlite3Step s)
  | refused {q : ℕ} : w.query q = some ⟨none⟩ → Move w (.getNext q) w
  | release {q : ℕ} : w.query q ≠ none → Move w (.release q) (w.release q)
  | close : Move w .close w.close

theorem step_move (hs : step w a = some (w', es)) : Move w a w' := by
  cases a with
  | connectionExecute t =>
    obtain ⟨rfl, -⟩ := Prod.mk.inj (Option.some.inj hs)
    exact .connectionExecute
  | execute q t =>
    simp only [step] at hs
    split at hs
    · next x hx =>
      obtain ⟨rfl, -⟩ := Prod.mk.inj (Option.some.inj hs)
      exact .execute (by rw [hx]; exact fun habs => (by cases habs))
    · cases hs
  | getNext q =>
    simp only [step] at hs
    split at hs
    · next s hq =>
      obtain ⟨rfl, -⟩ := Prod.mk.inj (Option.some.inj hs)
      exact .getNext hq
    · next hq =>
      obtain ⟨rfl, -⟩ := Prod.mk.inj (Option.some.inj hs)
      exact .refused hq
    · cases hs
  | release q =>
    simp only [step] at hs
    split at hs
    · next x hx =>
      obtain ⟨rfl, -⟩ := Prod.mk.inj (Option.some.inj hs)
      exact .release (by rw [hx]; exact fun habs => (by cases habs))
    · cases hs
  | close =>
    obtain ⟨rfl, -⟩ := Prod.mk.inj (Option.some.inj hs)
    exact .close

/-- Every step keeps the ledger, with the `getNext`s that it counts. -/
theorem Move.ledger (hm : Move w a w') (h : Ledger w c) : Ledger w' fun s => c s + if a.isNextOf w s then 1 else 0 := by
  cases hm with
  | @connectionExecute t => exact h.connectionExecute t
  | @execute q t hq => exact h.executeQuery hq t
  | @getNext q s hq =>
    have hcount : (fun u => c u + if Act.isNextOf (.getNext q) w u then 1 else 0) =
        Function.update c s (c s + 1) := by
      funext u
      rw [isNextOf_getNext, hq, Function.update_apply]
      by_cases hu : u = s
      · subst hu
        simp
      · rw [if_neg hu]
        simp [Ne.symm hu]
    rw [hcount]
    exact h.getNext hq
  | @refused q hq =>
    have hcount : (fun u => c u + if Act.isNextOf (.getNext q) w u then 1 else 0) = c := by
      funext u
      rw [isNextOf_getNext, hq]
      simp
    rw [hcount]
    exact h
  | @release q _ => exact h.release q
  | close => exact h.close

theorem query_of_prepare {t : Text} {k : ℕ} (hk : (w.prepare q t).1.query k = some ⟨some s⟩) :
    s = w.next ∨ w.query k = some ⟨some s⟩ := by
  cases t with
  | statement =>
    unfold World.prepare at hk
    dsimp only at hk
    split at hk
    · replace hk : Function.update w.query q (some ⟨some w.next⟩) k = some ⟨some s⟩ := hk
      rw [Function.update_apply] at hk
      split at hk
      · exact Or.inl (Option.some.inj (Query.mk.inj (Option.some.inj hk))).symm
      · exact Or.inr hk
    · exact Or.inr hk
  | comment => exact Or.inr hk
  | illFormed => exact Or.inr hk
  | empty => exact Or.inr hk

theorem prepare_next_le (w : World) (q : ℕ) (t : Text) : w.next ≤ (w.prepare q t).1.next := by
  cases t with
  | statement =>
    unfold World.prepare
    dsimp only
    split
    · exact Nat.le_succ _
    · exact le_rfl
  | comment => exact le_rfl
  | illFormed => exact le_rfl
  | empty => exact le_rfl

theorem held_of_executeQuery {t : Text} (hs : Held (w.executeQuery q t).1 s) :
    s = w.next ∨ Held (w.finalize q) s := by
  obtain ⟨k, hk⟩ := hs
  rcases query_of_prepare hk with heq | hold
  · exact Or.inl (heq.trans (finalize_next w q))
  · exact Or.inr ⟨k, hold⟩

theorem held_of_release (hs : Held (w.release q) s) : Held (w.finalize q) s := by
  obtain ⟨k, hk⟩ := hs
  replace hk : Function.update (w.finalize q).query q none k = some ⟨some s⟩ := hk
  rw [Function.update_apply] at hk
  split at hk
  · cases hk
  · exact ⟨k, hk⟩

theorem held_of_newQuery (hs : Held w.newQuery s) : Held w s := by
  obtain ⟨k, hk⟩ := hs
  replace hk : Function.update w.query w.nextQuery (some ⟨none⟩) k = some ⟨some s⟩ := hk
  rw [Function.update_apply] at hk
  split at hk
  · cases hk
  · exact ⟨k, hk⟩

/-- What a step lets a query have it had before, or it is new. -/
theorem Move.held (hm : Move w a w') : w.next ≤ w'.next ∧ (Held w' s → s = w.next ∨ Held w s) := by
  cases hm with
  | @connectionExecute t =>
    have hnext : w.next ≤ (w.newQuery.executeQuery w.nextQuery t).1.next :=
      (finalize_next w.newQuery w.nextQuery).symm.le.trans (prepare_next_le _ _ t)
    have hheld (hs : Held (w.newQuery.executeQuery w.nextQuery t).1 s) : s = w.next ∨ Held w s :=
      (held_of_executeQuery hs).imp_right fun hfin => held_of_newQuery (held_of_finalize hfin)
    unfold World.connectionExecute
    split
    · next w' heq =>
      rw [heq] at hnext hheld
      exact ⟨hnext, hheld⟩
    · next w' r _ heq =>
      rw [heq] at hnext hheld
      exact ⟨hnext.trans (finalize_next w' _).symm.le,
        fun hs => hheld (held_of_finalize (held_of_release hs))⟩
  | @execute q t _ =>
    refine ⟨?_, fun hheld => (held_of_executeQuery hheld).imp_right held_of_finalize⟩
    exact (finalize_next w q).symm.le.trans (prepare_next_le _ q t)
  | getNext | refused => exact ⟨le_rfl, Or.inr⟩
  | @release q _ =>
    exact ⟨(finalize_next w q).symm.le, fun hheld => Or.inr (held_of_finalize (held_of_release hheld))⟩
  | close =>
    refine ⟨(closeLoop_next w.queries.reverse w).symm.le, ?_⟩
    rintro ⟨k, hk⟩
    exact Or.inr ⟨k, (query_of_closeLoop hk).2⟩

/-- After an end of the query nobody has its statement. -/
theorem Move.not_held (hm : Move w a w') (h : Ledger w c) (hend : a.isEndOf q) (hq : w.query q = some ⟨some s⟩) :
    ¬Held w' s := by
  cases hm with
  | connectionExecute | getNext | refused => exact hend.elim
  | @execute q' t _ =>
    obtain rfl : q' = q := hend
    intro hheld
    rcases held_of_executeQuery hheld with heq | hold
    · have hlt := (h.held ⟨q', hq⟩).1
      omega
    · exact h.not_held_finalize hq hold
  | @release q' _ =>
    obtain rfl : q' = q := hend
    exact fun hheld => h.not_held_finalize hq (held_of_release hheld)
  | close =>
    rintro ⟨k, hk⟩
    exact h.close_query k s hk

/-! ## Runs -/

variable {π : List (Taken World Act Reply)}

/-- How often `getNext` was called for a statement. -/
def getNexts (π : List (Taken World Act Reply)) (s : ℕ) : ℕ := π.countP fun x => x.act.isNextOf x.pre s

theorem ledger_of_run (hr : Run machine π w) : Ledger w (getNexts π) := by
  induction hr with
  | start =>
    refine ⟨?_, fun hlt => absurd hlt (Nat.not_lt_zero _), fun _ => ⟨rfl, rfl⟩, ?_, ?_, ?_, ?_⟩
    · rintro s ⟨q, hq⟩
      cases hq
    · intro q q' s hq
      cases hq
    · exact fun _ hq => absurd rfl hq
    · intro q s hconn
      cases hconn
    · exact fun hq => absurd rfl hq
  | @snoc π w w' a es _ hstep ih =>
    have hcount : getNexts (π ++ [⟨w, a, es⟩]) = fun s => getNexts π s + if a.isNextOf w s then 1 else 0 := by
      funext s
      unfold getNexts
      rw [List.countP_append, List.countP_singleton]
    rw [hcount]
    exact (step_move hstep).ledger ih

/-- Nobody gets back a statement that its query has let go of. -/
theorem past_of_run (hr : Run machine π w) {x : Taken World Act Reply} (hx : x ∈ π) (hend : x.act.isEndOf q)
    (hq : x.pre.query q = some ⟨some s⟩) : s < w.next ∧ ¬ Held w s := by
  induction hr with
  | start => cases hx
  | @snoc π w w' a es hrun hstep ih =>
    obtain ⟨hle, hheld⟩ := (step_move hstep).held (s := s)
    rcases List.mem_append.mp hx with hx | hx
    · obtain ⟨hlt, hnot⟩ := ih hx
      refine ⟨by omega, fun hs => (hheld hs).elim (fun heq => ?_) hnot⟩
      omega
    · obtain rfl := List.mem_singleton.mp hx
      have hledger := ledger_of_run hrun
      have hlt := (hledger.held ⟨q, hq⟩).1
      exact ⟨by omega, (step_move hstep).not_held hledger hend hq⟩

/-- **Once.**  In every run of a connection and its queries, a statement of a query that then was released, or was
given another one to execute, or whose connection was closed, was executed exactly once, exactly if `getNext` was not
called for it. -/
theorem once_iff (hr : Run machine π w) {x : Taken World Act Reply} (hx : x ∈ π) (hend : x.act.isEndOf q)
    (hq : x.pre.query q = some ⟨some s⟩) : w.executed s = 1 ↔ getNexts π s = 0 := by
  obtain ⟨hlt, hnot⟩ := past_of_run hr hx hend hq
  rw [(ledger_of_run hr).past hlt hnot]
  omega

/-- A query that is given a second statement: the first one was executed once by then. -/
theorem once_iff_two : ∃ (π : List (Taken World Act Reply)) (w : World), Run machine π w ∧
    w.query 0 = some ⟨some 1⟩ ∧ w.executed 0 = 1 ∧ (w.executed 0 = 1 ↔ getNexts π 0 = 0) := by
  obtain ⟨π, w, hr, hp⟩ := exists_run_of_replay (M := machine)
    (p := fun (π : List (Taken World Act Reply)) (w : World) =>
      decide (w.query 0 = some ⟨some 1⟩ ∧ w.executed 0 = 1 ∧
        ∃ x ∈ π, x.act = .execute 0 .statement ∧ x.pre.query 0 = some ⟨some 0⟩))
    [.connectionExecute .statement, .execute 0 .statement] (by decide +kernel)
  obtain ⟨hquery, hone, x, hx, hact, hq⟩ := of_decide_eq_true hp
  have hend : x.act.isEndOf 0 := by
    rw [hact]
    rfl
  exact ⟨π, w, hr, hquery, hone, once_iff hr hx hend hq⟩

/-- `getNext` is called once and the query is released: the statement was executed twice. -/
theorem twice : ∃ (π : List (Taken World Act Reply)) (w : World), Run machine π w ∧ getNexts π 0 = 1 ∧
    w.query 0 = none ∧ w.executed 0 = 2 := by
  obtain ⟨π, w, hr, hp⟩ := exists_run_of_replay (M := machine)
    (p := fun (π : List (Taken World Act Reply)) (w : World) =>
      decide (getNexts π 0 = 1 ∧ w.query 0 = none ∧ w.executed 0 = 2))
    [.connectionExecute .statement, .getNext 0, .release 0] (by decide +kernel)
  obtain ⟨hnext, hgone, htwo⟩ := of_decide_eq_true hp
  exact ⟨π, w, hr, hnext, hgone, htwo⟩

end Lasagne.Ldbc.SQLiteQuery
