import Lasagne.Daf.SynchronousChannel

/-!
# Lasagne.Daf.Encounter — what can happen at a node of a synchronous channel

The abstract view of the channel: every node has a `Life`, in which at most one put and one take meet.
`Turn` lists what a host or a guest can do to a life.  Two of its cases are wrong: a host that throws
although its node has changed hands.

The lemmas at the end say that every section of `put` and `take` at a node is a turn (`Turns`), and when it
is a wrong one.
-/

namespace Lasagne.Daf.SynchronousChannel

open Lasagne.Trans

/-! ## Lives -/

section Lives

variable {T : Type*}

/-- What has happened at a node: `c` is a put, `t` its item, `d` a take. -/
inductive Life (T : Type*) where
  | unborn
  /-- the put `c` waits with its item -/
  | offers (c : ℕ) (t : T)
  /-- `d` has returned with the item; `c` has not left yet -/
  | taken (c : ℕ) (t : T) (d : ℕ)
  /-- the take `d` waits -/
  | seeks (d : ℕ)
  /-- `c` has put its item and returned; `d` has not left yet -/
  | given (d c : ℕ) (t : T)
  /-- both have returned; `first`: the put was the host -/
  | met (first : Bool) (c : ℕ) (t : T) (d : ℕ)
  /-- somebody withdrew before the two met -/
  | void (offer : Option (ℕ × T))
  /-- the item was taken, and the put threw -/
  | robbed (c : ℕ) (t : T) (d : ℕ)
  /-- the put has returned, and the take threw -/
  | lost (d c : ℕ) (t : T)

/-- What a thread is at a node. -/
inductive Seat (T : Type*) where
  | putHost (c : ℕ) (t : T)
  | putGuest (c : ℕ) (t : T)
  | takeHost (d : ℕ)
  | takeGuest (d : ℕ)

/-- The call of a seat. -/
def Seat.call : Seat T → ℕ
  | .putHost c _ | .putGuest c _ | .takeHost c | .takeGuest c => c

def Seat.isGuest : Seat T → Bool
  | .putGuest _ _ | .takeGuest _ => true
  | .putHost _ _ | .takeHost _ => false

/-- The node a thread is at, and what it is there. -/
def Pc.seat : Pc T → Option (ℕ × Seat T)
  | .putNode _ c t n true | .putWait _ c t n => some (n, .putHost c t)
  | .putNode _ c t n false => some (n, .putGuest c t)
  | .takeNode _ d n true | .takeWait _ d n => some (n, .takeHost d)
  | .takeNode _ d n false => some (n, .takeGuest d)
  | _ => none

/-- The call a thread is in. -/
def Pc.call : Pc T → Option ℕ
  | .idle => none
  | .putTop _ c _ | .putLock _ c _ | .putNode _ c _ _ _ | .putWait _ c _ _ => some c
  | .takeTop _ d | .takeLock _ d | .takeNode _ d _ _ | .takeWait _ d _ => some d

/-- The item a thread is putting. -/
def Pc.item : Pc T → Option T
  | .putTop _ _ t | .putLock _ _ t | .putNode _ _ t _ _ | .putWait _ _ t _ => some t
  | _ => none

theorem Pc.call_of_seat {x : Pc T} {n : ℕ} {r : Seat T} (h : x.seat = some (n, r)) :
    x.call = some r.call := by
  cases x with
  | putNode timed c t m w => cases w <;> cases h <;> rfl
  | takeNode timed d m w => cases w <;> cases h <;> rfl
  | putWait => cases h; rfl
  | takeWait => cases h; rfl
  | idle | putTop | putLock | takeTop | takeLock => cases h

/-- The call that an event ends. -/
def Event.ends : Event T → Option ℕ
  | .putRet c _ | .putFail c _ | .putThrew c _ _ | .took c _ _ | .takeThrew c _ _ => some c
  | .put _ _ | .take _ | .offered _ _ | .joined _ _ => none

/-- The node that an event hands an item over at. -/
def Event.node : Event T → Option ℕ
  | .offered _ n | .putRet _ n | .took _ n _ => some n
  | _ => none

/-- The events of `n`. -/
def ofNode (n : ℕ) (tr : List (Event T)) : List (Event T) := tr.filter fun e => e.node = some n

@[simp] theorem ofNode_append (n : ℕ) (tr es : List (Event T)) :
    ofNode n (tr ++ es) = ofNode n tr ++ ofNode n es := by
  simp [ofNode]

theorem mem_ofNode {n : ℕ} {tr : List (Event T)} {e : Event T} (he : e.node = some n) :
    e ∈ ofNode n tr ↔ e ∈ tr := by
  simp [ofNode, he]

namespace Life

/-- The events of a life. -/
def log (n : ℕ) : Life T → List (Event T)
  | .unborn | .seeks _ | .void none => []
  | .offers c _ | .void (some (c, _)) => [.offered c n]
  | .taken c t d | .robbed c t d => [.offered c n, .took d n t]
  | .given _ c _ | .lost _ c _ => [.offered c n, .putRet c n]
  | .met true c t d => [.offered c n, .took d n t, .putRet c n]
  | .met false c t d => [.offered c n, .putRet c n, .took d n t]

/-- The put that has offered an item, and the item. -/
def offer : Life T → Option (ℕ × T)
  | .unborn | .seeks _ => none
  | .void o => o
  | .offers c t | .taken c t _ | .given _ c t | .met _ c t _ | .robbed c t _ | .lost _ c t => some (c, t)

/-- What the node holds. -/
def Fits : Life T → SYNCHNode T → Prop
  | .unborn, _ => True
  | .offers _ t, node | .given _ _ t, node => node = ⟨t, .FULL⟩
  | .taken _ _ _, node | .seeks _, node | .met _ _ _ _, node => node.state_ = .EMPTY
  | .void _, node | .robbed _ _ _, node | .lost _ _ _, node => node.state_ = .CANCELLED

/-- Who can be there. -/
def Allows : Life T → Seat T → Prop
  | .offers c t, .putHost c' t' | .taken c t _, .putHost c' t' => c' = c ∧ t' = t
  | .seeks d, .takeHost d' | .given d _ _, .takeHost d' => d' = d
  | .offers _ _, .takeGuest _ | .seeks _, .putGuest _ _ | .void _, _ => True
  | _, _ => False

/-- Who must be there. -/
def host : Life T → Option (Seat T)
  | .offers c t | .taken c t _ => some (.putHost c t)
  | .seeks d | .given d _ _ => some (.takeHost d)
  | _ => none

/-- Nothing more can come from `d` here. -/
def Done (d : ℕ) : Life T → Prop
  | .void _ => True
  | .taken _ _ d' | .met _ _ _ d' | .robbed _ _ d' | .lost d' _ _ => d' = d
  | _ => False

/-- Nobody threw after the item had changed hands. -/
def Good : Life T → Prop
  | .robbed _ _ _ | .lost _ _ _ => False
  | _ => True

end Life

/-! ## Turns -/

/-- Where a turn leaves its thread. -/
inductive Next where
  | stays
  | retries
  | leaves
deriving DecidableEq

/-- The events of a call that gives up at `n`. -/
inductive Quits (n : ℕ) : Seat T → Event T → Prop
  | put {c : ℕ} {t : T} {e : Exn} : Quits n (.putHost c t) (.putThrew c (some n) e)
  | fail {c : ℕ} {t : T} : Quits n (.putHost c t) (.putFail c n)
  | guestPut {c : ℕ} {t : T} {e : Exn} : Quits n (.putGuest c t) (.putThrew c (some n) e)
  | take {d : ℕ} {e : Exn} : Quits n (.takeHost d) (.takeThrew d (some n) e)
  | guestTake {d : ℕ} {e : Exn} : Quits n (.takeGuest d) (.takeThrew d (some n) e)

/-- What a thread can do at the node `n`. -/
inductive Turn (n : ℕ) : Life T → Seat T → List (Event T) → Next → Life T → Prop
  | wait {L : Life T} {r : Seat T} : L.host = some r → Turn n L r [] .stays L
  | retry {o : Option (ℕ × T)} {r : Seat T} : Turn n (.void o) r [] .retries (.void o)
  | quit {L : Life T} {r : Seat T} {e : Event T} :
      ((∃ c t, L = .offers c t) ∨ (∃ d, L = .seeks d) ∨ ∃ o, L = .void o) → Quits n r e →
      Turn n L r [e] .leaves (.void L.offer)
  | serveTake {c : ℕ} {t : T} {d : ℕ} :
      Turn n (.offers c t) (.takeGuest d) [.took d n t] .leaves (.taken c t d)
  | servePut {d c : ℕ} {t : T} :
      Turn n (.seeks d) (.putGuest c t) [.offered c n, .putRet c n] .leaves (.given d c t)
  | endPut {c : ℕ} {t : T} {d : ℕ} :
      Turn n (.taken c t d) (.putHost c t) [.putRet c n] .leaves (.met true c t d)
  | endTake {d c : ℕ} {t : T} :
      Turn n (.given d c t) (.takeHost d) [.took d n t] .leaves (.met false c t d)
  /-- the host throws, although its item was taken -/
  | rob {c : ℕ} {t : T} {d : ℕ} {e : Exn} :
      Turn n (.taken c t d) (.putHost c t) [.putThrew c (some n) e] .leaves (.robbed c t d)
  /-- the host throws, although it was given an item -/
  | lose {d c : ℕ} {t : T} {e : Exn} :
      Turn n (.given d c t) (.takeHost d) [.takeThrew d (some n) e] .leaves (.lost d c t)

namespace Turn

variable {n : ℕ} {L L' : Life T} {r r' : Seat T} {es : List (Event T)} {x : Next}

theorem log_eq (h : Turn n L r es x L') : L'.log n = L.log n ++ ofNode n es := by
  cases h with
  | wait => simp [ofNode]
  | retry => simp [ofNode]
  | quit hL hq =>
    rcases hL with ⟨c, t, rfl⟩ | ⟨d, rfl⟩ | ⟨o, rfl⟩ <;> cases hq <;>
      simp [ofNode, Life.log, Life.offer, Event.node]
  | serveTake | servePut | endPut | endTake | rob | lose => simp [ofNode, Life.log, Event.node]

theorem ofNode_ne (h : Turn n L r es x L') {m : ℕ} (hm : m ≠ n) : ofNode m es = [] := by
  cases h with
  | wait | retry => rfl
  | quit hL hq => cases hq <;> simp [ofNode, Event.node]
  | serveTake | servePut | endPut | endTake | rob | lose => simp [ofNode, Event.node, hm.symm]

theorem ends_eq (h : Turn n L r es x L') :
    es.filterMap Event.ends = if x = .leaves then [r.call] else [] := by
  cases h with
  | wait | retry => rfl
  | quit hL hq => cases hq <;> rfl
  | serveTake | servePut | endPut | endTake | rob | lose => rfl

/-- Nobody calls `put` or joins a node in a turn. -/
theorem not_called (h : Turn n L r es x L') : (∀ c t, .put c t ∉ es) ∧ ∀ d m, .joined d m ∉ es := by
  cases h with
  | wait | retry => simp
  | quit hL hq => cases hq <;> simp
  | serveTake | servePut | endPut | endTake | rob | lose => simp

/-- A turn drives out nobody but its own thread, or another guest if it is one. -/
theorem allows (h : Turn n L r es x L') (hr : L.Allows r') :
    L'.Allows r' ∨ r' = r ∨ (r'.isGuest = true ∧ r.isGuest = true) := by
  cases h with
  | wait => exact Or.inl hr
  | retry => exact Or.inl trivial
  | quit => exact Or.inl trivial
  | serveTake | servePut | endPut | endTake | rob | lose =>
    cases r' <;> simp_all [Life.Allows, Seat.isGuest]

/-- Those that must be there stay there. -/
theorem host_eq (h : Turn n L r es x L') (hr : L'.host = some r') :
    L.host = some r' ∧ (x = .stays ∨ r' ≠ r) := by
  cases h with
  | wait => exact ⟨hr, Or.inl rfl⟩
  | retry => cases hr
  | quit => cases hr
  | serveTake | servePut | endPut | endTake | rob | lose => cases hr <;> simp [Life.host]

theorem done (h : Turn n L r es x L') {d : ℕ} (hd : L.Done d) : L'.Done d := by
  cases h with
  | wait | retry => exact hd
  | quit => trivial
  | serveTake | servePut => cases hd
  | endPut | rob => exact hd
  | endTake | lose => cases hd

/-- A take that is done with the node leaves it so. -/
theorem done_self (h : Turn n L r es x L') {d : ℕ} (hx : x ≠ .stays)
    (hr : r = .takeHost d ∨ r = .takeGuest d) : L'.Done d := by
  cases h with
  | wait => exact absurd rfl hx
  | retry => trivial
  | quit => trivial
  | serveTake | servePut | endPut | endTake | rob | lose => rcases hr with hr | hr <;> cases hr <;> rfl

theorem offer_eq (h : Turn n L r es x L') {c : ℕ} {t : T} (ho : L'.offer = some (c, t)) :
    L.offer = some (c, t) ∨ r = .putGuest c t := by
  cases h with
  | wait | retry | quit => exact Or.inl ho
  | servePut => cases ho; exact Or.inr rfl
  | serveTake | endPut | endTake | rob | lose => cases ho; exact Or.inl rfl

theorem eq_of_stays (h : Turn n L r es x L') (hx : x = .stays) : L' = L := by
  cases h with
  | wait => rfl
  | retry | quit | serveTake | servePut | endPut | endTake | rob | lose => cases hx

/-- Only a host waits. -/
theorem isGuest_of_stays (h : Turn n L r es x L') (hx : x = .stays) : r.isGuest = false := by
  cases h with
  | wait hL => cases L <;> cases hL <;> rfl
  | retry | quit | serveTake | servePut | endPut | endTake | rob | lose => cases hx

theorem eq_host (h : Turn n L r es x L') (hx : x = .stays) {guest : Bool} {g host : Seat T}
    (hr : r = if guest then g else host) (hg : g.isGuest = true) : r = host := by
  cases guest with
  | false => exact hr
  | true =>
    have hnot := h.isGuest_of_stays hx
    rw [hr, if_pos rfl, hg] at hnot
    cases hnot

theorem ne_unborn (h : Turn n L r es x L') : L' ≠ .unborn := by
  cases h with
  | wait hL =>
    rintro rfl
    cases hL
  | retry | quit | serveTake | servePut | endPut | endTake | rob | lose => exact nofun

theorem robbed (h : Turn n L r es x L') {c : ℕ} {t : T} {d : ℕ} (hL' : L' = .robbed c t d) :
    ∃ e, .putThrew c (some n) e ∈ es := by
  cases h with
  | wait hL =>
    subst hL'
    cases hL
  | rob =>
    cases hL'
    exact ⟨_, List.mem_singleton.mpr rfl⟩
  | retry | quit | serveTake | servePut | endPut | endTake | lose => cases hL'

theorem lost (h : Turn n L r es x L') {d c : ℕ} {t : T} (hL' : L' = .lost d c t) :
    ∃ e, .takeThrew d (some n) e ∈ es := by
  cases h with
  | wait hL =>
    subst hL'
    cases hL
  | lose =>
    cases hL'
    exact ⟨_, List.mem_singleton.mpr rfl⟩
  | retry | quit | serveTake | servePut | endPut | endTake | rob => cases hL'

end Turn

/-! ## Sections are turns -/

section Sections

variable [Inhabited T] {n : ℕ} {L : Life T} {node : SYNCHNode T}

/-- Where a section leaves its thread. -/
def Ends.next {R : Type*} : Ends R → Next
  | .waits => .stays
  | .retries => .retries
  | .returns _ | .throws _ => .leaves

/-- What a section of `put` shows. -/
def putShows (c n : ℕ) (guest : Bool) : Ends ℤ → List (Event T)
  | .waits | .retries => []
  | .returns v =>
    if v = 0 then (if guest then [.offered c n] else []) ++ [.putRet c n] else [.putFail c n]
  | .throws e => [.putThrew c (some n) e]

/-- What a section of `take` shows. -/
def takeShows (d n : ℕ) : Ends T → List (Event T)
  | .waits | .retries => []
  | .returns v => [.took d n v]
  | .throws e => [.takeThrew d (some n) e]

/-- A section that turns a node with the life `L` into `r.1`; its turn is wrong where `bad`. -/
def Turns {R : Type*} (n : ℕ) (L : Life T) (seat : Seat T) (shows : Ends R → List (Event T))
    (bad : Prop) (r : SYNCHNode T × Ends R) : Prop :=
  ∃ L', Turn n L seat (shows r.2) r.2.next L' ∧ L'.Fits r.1 ∧ (L'.Good ↔ ¬ bad)

theorem putLoop_turns (hf : L.Fits node) {c : ℕ} {t : T} (ha : L.Allows (.putHost c t)) (i : Bool) :
    Turns n L (.putHost c t) (putShows c n false) (i = true ∧ node.state_ = .EMPTY)
      (node.putLoop i) := by
  unfold Turns
  cases L with
  | offers c' t' =>
    obtain ⟨rfl, rfl⟩ := ha
    obtain rfl : node = ⟨t, .FULL⟩ := hf
    cases i with
    | false => exact ⟨_, .wait rfl, rfl, by simp [Life.Good]⟩
    | true => exact ⟨_, .quit (Or.inl ⟨c, t, rfl⟩) .put, rfl, by simp [Life.Good]⟩
  | taken c' t' d =>
    obtain ⟨rfl, rfl⟩ := ha
    have hs : node.state_ = .EMPTY := hf
    cases i with
    | false =>
      refine ⟨.met true c t d, ?_, ?_, by simp [Life.Good]⟩ <;> simp only [SYNCHNode.putLoop, hs]
      · exact .endPut
      · exact hs
    | true =>
      refine ⟨.robbed c t d, ?_, ?_, by simp [Life.Good, hs]⟩ <;> simp only [SYNCHNode.putLoop, hs]
      · exact .rob
      · rfl
  | void o =>
    have hs : node.state_ = .CANCELLED := hf
    refine ⟨.void o, ?_, ?_, by simp [Life.Good, hs]⟩ <;> simp only [SYNCHNode.putLoop, hs]
    · exact .retry
    · exact hs
  | unborn | seeks | given | met | robbed | lost => cases ha

theorem putWoke_turns (hf : L.Fits node) {c : ℕ} {t : T} (ha : L.Allows (.putHost c t)) (i : Bool)
    (w : WaitResult) :
    Turns n L (.putHost c t) (putShows c n false) False (node.putWoke i w) := by
  cases L with
  | offers c' t' =>
    obtain ⟨rfl, rfl⟩ := ha
    obtain rfl : node = ⟨t, .FULL⟩ := hf
    cases w with
    | woken =>
      have hw : (⟨t, .FULL⟩ : SYNCHNode T).putWoke i .woken = (⟨t, .FULL⟩ : SYNCHNode T).putLoop i := by
        simp [SYNCHNode.putWoke]
      rw [hw]
      simpa using putLoop_turns (n := n) (L := .offers c t) rfl ⟨rfl, rfl⟩ i
    | timedOut =>
      cases i with
      | false => exact ⟨_, .quit (Or.inl ⟨c, t, rfl⟩) .fail, rfl, by simp [Life.Good]⟩
      | true => exact ⟨_, .quit (Or.inl ⟨c, t, rfl⟩) .put, rfl, by simp [Life.Good]⟩
  | taken c' t' d =>
    obtain ⟨rfl, rfl⟩ := ha
    have hs : node.state_ = .EMPTY := hf
    have hw : node.putWoke i w = (node, .returns 0) := by simp [SYNCHNode.putWoke, hs]
    rw [hw]
    exact ⟨.met true c t d, .endPut, hs, by simp [Life.Good]⟩
  | void o =>
    have hs : node.state_ = .CANCELLED := hf
    have hw : node.putWoke i w = (node, .retries) := by simp [SYNCHNode.putWoke, SYNCHNode.putLoop, hs]
    rw [hw]
    exact ⟨.void o, .retry, hs, by simp [Life.Good]⟩
  | unborn | seeks | given | met | robbed | lost => cases ha

theorem putGuest_turns (hf : L.Fits node) {c : ℕ} {t : T} (ha : L.Allows (.putGuest c t)) (i : Bool) :
    Turns n L (.putGuest c t) (putShows c n true) False (node.putGuest i t) := by
  cases L with
  | seeks d =>
    have hs : node.state_ = .EMPTY := hf
    cases i with
    | true => exact ⟨_, .quit (Or.inr (Or.inl ⟨d, rfl⟩)) .guestPut, rfl, by simp [Life.Good]⟩
    | false =>
      have hw : node.putGuest false t = (⟨t, .FULL⟩, .returns 0) := by
        simp [SYNCHNode.putGuest, SYNCHNode.put_item, SYNCHNode.state, hs]
      rw [hw]
      exact ⟨.given d c t, .servePut, rfl, by simp [Life.Good]⟩
  | void o =>
    have hs : node.state_ = .CANCELLED := hf
    cases i with
    | true => exact ⟨_, .quit (Or.inr (Or.inr ⟨o, rfl⟩)) .guestPut, rfl, by simp [Life.Good]⟩
    | false =>
      have hw : node.putGuest false t = (node, .retries) := by
        simp [SYNCHNode.putGuest, SYNCHNode.put_item, hs]
      rw [hw]
      exact ⟨.void o, .retry, hs, by simp [Life.Good]⟩
  | unborn | offers | taken | given | met | robbed | lost => cases ha

theorem takeLoop_turns (hf : L.Fits node) {d : ℕ} (ha : L.Allows (.takeHost d)) (i : Bool) :
    Turns n L (.takeHost d) (takeShows d n) (i = true ∧ node.state_ = .FULL) (node.takeLoop i) := by
  cases L with
  | seeks d' =>
    obtain rfl : d = d' := ha
    have hs : node.state_ = .EMPTY := hf
    cases i with
    | true =>
      have hw : node.takeLoop true = node.throws .interrupted := by simp [SYNCHNode.takeLoop, hs]
      rw [hw]
      exact ⟨_, .quit (Or.inr (Or.inl ⟨d, rfl⟩)) .take, rfl, by simp [Life.Good, hs]⟩
    | false =>
      have hw : node.takeLoop false = (node, .waits) := by
        simp [SYNCHNode.takeLoop, SYNCHNode.get_item, hs]
      rw [hw]
      exact ⟨_, .wait rfl, hs, by simp [Life.Good]⟩
  | given d' c t =>
    obtain rfl : d = d' := ha
    obtain rfl : node = ⟨t, .FULL⟩ := hf
    cases i with
    | true => exact ⟨_, .lose, rfl, by simp [Life.Good]⟩
    | false => exact ⟨_, .endTake, rfl, by simp [Life.Good]⟩
  | void o =>
    have hs : node.state_ = .CANCELLED := hf
    have hw : node.takeLoop i = (node, .retries) := by simp [SYNCHNode.takeLoop, hs]
    rw [hw]
    exact ⟨.void o, .retry, hs, by simp [Life.Good, hs]⟩
  | unborn | offers | taken | met | robbed | lost => cases ha

theorem takeWoke_turns (hf : L.Fits node) {d : ℕ} (ha : L.Allows (.takeHost d)) (i : Bool)
    (w : WaitResult) :
    Turns n L (.takeHost d) (takeShows d n) (w = .woken ∧ i = true ∧ node.state_ = .FULL)
      (node.takeWoke i w) := by
  cases w with
  | woken => simpa [SYNCHNode.takeWoke] using takeLoop_turns hf ha i
  | timedOut =>
    cases L with
    | seeks d' =>
      obtain rfl : d = d' := ha
      have hs : node.state_ = .EMPTY := hf
      have hw : node.takeWoke i .timedOut = node.throws (if i then .interrupted else .timeout) := by
        simp [SYNCHNode.takeWoke, SYNCHNode.get_item, hs]
      rw [hw]
      exact ⟨_, .quit (Or.inr (Or.inl ⟨d, rfl⟩)) .take, rfl, by simp [Life.Good]⟩
    | given d' c t =>
      obtain rfl : d = d' := ha
      obtain rfl : node = ⟨t, .FULL⟩ := hf
      exact ⟨_, .endTake, rfl, by simp [Life.Good]⟩
    | void o =>
      have hs : node.state_ = .CANCELLED := hf
      have hw : node.takeWoke i .timedOut = node.throws (if i then .interrupted else .timeout) := by
        simp [SYNCHNode.takeWoke, SYNCHNode.get_item, hs]
      rw [hw]
      exact ⟨_, .quit (Or.inr (Or.inr ⟨o, rfl⟩)) .take, rfl, by simp [Life.Good]⟩
    | unborn | offers | taken | met | robbed | lost => cases ha

theorem takeGuest_turns (hf : L.Fits node) {d : ℕ} (ha : L.Allows (.takeGuest d)) (i : Bool) :
    Turns n L (.takeGuest d) (takeShows d n) False (node.takeGuest i) := by
  cases L with
  | offers c t =>
    obtain rfl : node = ⟨t, .FULL⟩ := hf
    cases i with
    | true => exact ⟨_, .quit (Or.inl ⟨c, t, rfl⟩) .guestTake, rfl, by simp [Life.Good]⟩
    | false => exact ⟨_, .serveTake, rfl, by simp [Life.Good]⟩
  | void o =>
    have hs : node.state_ = .CANCELLED := hf
    cases i with
    | true => exact ⟨_, .quit (Or.inr (Or.inr ⟨o, rfl⟩)) .guestTake, rfl, by simp [Life.Good]⟩
    | false =>
      have hw : node.takeGuest false = (node, .retries) := by
        simp [SYNCHNode.takeGuest, SYNCHNode.get_item, hs]
      rw [hw]
      exact ⟨.void o, .retry, hs, by simp [Life.Good]⟩
  | unborn | taken | seeks | given | met | robbed | lost => cases ha

end Sections

end Lives

end Lasagne.Daf.SynchronousChannel
