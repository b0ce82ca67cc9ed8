import Lasagne.Trans.Run
import Lasagne.Dev.TtyStream

/-!
# Lasagne.Dev.TtyRing — the ring buffer of a `DEV::TTY_Stream` over whole runs

The steps are those of `write_data` and `read_data`: `n = put(buf, len); put_bump(n)` and `n = get(buf, len);
get_bump(n)`, with any buffer and any length.  A step ends for some `fuel`, or it is none.

* `Sound`: the stream is a queue of bytes.
* `ring_sound`: it is one in every run, whatever its size.
-/

namespace Lasagne.Dev

open Lasagne.Trans Lasagne.Daf

namespace TtyStream

/-- A transfer: the length and the caller's buffer, or a null pointer. -/
inductive Act where
  | put (fuel : ℕ) (iov_buf : Option (ℕ → UInt8)) (iov_len : ℤ)
  | get (fuel : ℕ) (iov_buf : Option (ℕ → UInt8)) (iov_len : ℤ)

/-- What a step did: the number of bytes that `put` or `get` returned, by how many the position was moved, and
the bytes. -/
inductive Event where
  | put (n moved : ℕ) (bytes : List UInt8)
  | get (n moved : ℕ) (bytes : List UInt8)
deriving DecidableEq, Repr

/-- One step. -/
def step (s : TtyStream) : Act → Option (TtyStream × List Event)
  | .put fuel iov_buf iov_len =>
    (put fuel s iov_buf iov_len).map fun r =>
      ((putBump r.1 r.2).2, [.put r.1 (putBump r.1 r.2).1 (callerBytes iov_buf r.1)])
  | .get fuel iov_buf iov_len =>
    (get fuel s iov_buf iov_len).map fun r =>
      ((getBump r.1 s).2, [.get r.1 (getBump r.1 s).1 (callerBytes r.2 r.1)])

/-- The steps, from a new stream on. -/
def machine (size : ℕ) (junk : ℕ → UInt8) : Machine TtyStream Act Event where
  init := new size junk
  step := step

/-- The bytes that a step put in. -/
def Event.accepted : Event → List UInt8
  | .put _ _ bytes => bytes
  | .get _ _ _ => []

/-- The bytes that a step took out. -/
def Event.delivered : Event → List UInt8
  | .put _ _ _ => []
  | .get _ _ bytes => bytes

/-- The position was moved by as many as were copied. -/
def Event.exact : Event → Prop
  | .put n moved _ => moved = n
  | .get n moved _ => moved = n

/-- A queue of bytes, after the events `tr`. -/
structure Sound (size : ℕ) (tr : List Event) (s : TtyStream) : Prop where
  size_eq : s.size = size
  head_lt : s.head_ < s.size_
  tail_lt : s.tail_ < s.size_
  /-- the positions have been moved by what was copied -/
  exact : ∀ e ∈ tr, e.exact
  head_eq : s.head_ = (tr.flatMap Event.accepted).length % s.size_
  tail_eq : s.tail_ = (tr.flatMap Event.delivered).length % s.size_
  length_eq : (tr.flatMap Event.accepted).length = (tr.flatMap Event.delivered).length + s.length
  isEmpty_iff : s.isEmpty = true ↔ s.length = 0
  isFull_iff : s.isFull = true ↔ s.length = s.size
  /-- what came out, and what is there, is what went in -/
  in_order : tr.flatMap Event.accepted = tr.flatMap Event.delivered ++ s.unread
  find : ∀ c off, ∃ r : Option ℕ, s.find c off = some (r.elim (-1) Nat.cast) ∧ Found s.unread c off r

/-! ## Steps -/

variable {s s' : TtyStream} {q : List UInt8} {es tr : List Event} {size : ℕ} {junk : ℕ → UInt8}

/-- What is known after the events `tr`: the bytes `q` are unread. -/
structure Account (size : ℕ) (tr : List Event) (s : TtyStream) (q : List UInt8) : Prop where
  holds : Holds s q
  size_eq : s.size_ = size + 1
  head_fit : Fit s.size_ q s.head_
  tail_fit : Fit s.size_ q s.tail_
  exact : ∀ e ∈ tr, e.exact
  tail_eq : s.tail_ = (tr.flatMap Event.delivered).length % s.size_
  in_order : tr.flatMap Event.accepted = tr.flatMap Event.delivered ++ q

theorem account_new (size : ℕ) (junk : ℕ → UInt8) : Account size [] (new size junk) [] := by
  have hfit : Fit (size + 1) [] 0 := fit_new size
  exact ⟨holds_new size junk, rfl, hfit, hfit, fun _ h => (by cases h), (Nat.zero_mod _).symm, rfl⟩

namespace Account

/-- `n = put(buf, len); put_bump(n)`. -/
theorem put (h : Account size tr s q) {fuel n : ℕ} {t : TtyStream} {iov_buf : Option (ℕ → UInt8)} {iov_len : ℤ}
    (hput : TtyStream.put fuel s iov_buf iov_len = some (n, t)) :
    Account size (tr ++ [.put n (TtyStream.putBump n t).1 (callerBytes iov_buf n)]) (TtyStream.putBump n t).2
      (q ++ callerBytes iov_buf n) := by
  obtain ⟨mem, p, rfl, hp, rfl, hacc⟩ := h.holds.put h.head_fit hput
  rw [hacc.putBump, hp]
  refine ⟨hacc.after, h.size_eq, hacc.fit, ?_, ?_, ?_, ?_⟩
  · rcases h.tail_fit with hnear | ⟨hneg, rfl⟩
    · exact Or.inl hnear
    · exact Or.inr ⟨hneg, hacc.stuck hneg⟩
  · intro e he
    rcases List.mem_append.mp he with he | he
    · exact h.exact e he
    · obtain rfl := List.mem_singleton.mp he
      rfl
  · show s.tail_ = _ % s.size_
    rw [h.tail_eq]
    simp [Event.delivered]
  · simp [Event.accepted, Event.delivered, h.in_order]

/-- `n = get(buf, len); get_bump(n)`. -/
theorem get (h : Account size tr s q) {fuel n : ℕ} {iov_buf out : Option (ℕ → UInt8)} {iov_len : ℤ}
    (hget : TtyStream.get fuel s iov_buf iov_len = some (n, out)) :
    Account size (tr ++ [.get n (TtyStream.getBump n s).1 (callerBytes out n)]) (TtyStream.getBump n s).2
      (q.drop n) := by
  obtain ⟨hle, hbytes, hfit⟩ := h.holds.get h.tail_fit hget
  have hdelivered : (callerBytes out n).length = n := by
    rw [hbytes, List.length_take]
    omega
  rw [h.holds.getBump hle]
  refine ⟨h.holds.drop hle, h.size_eq, ?_, hfit, ?_, ?_, ?_⟩
  · rcases h.head_fit with hnear | ⟨hneg, rfl⟩
    · exact Or.inl hnear
    · exact Or.inr ⟨hneg, List.drop_nil⟩
  · intro e he
    rcases List.mem_append.mp he with he | he
    · exact h.exact e he
    · obtain rfl := List.mem_singleton.mp he
      rfl
  · show (s.tail_ + n) % s.size_ = _ % s.size_
    rw [h.tail_eq, Nat.mod_add_mod]
    simp [Event.delivered, hdelivered]
  · simp only [List.flatMap_append, List.flatMap_singleton, Event.accepted, Event.delivered, List.append_nil,
      hbytes, List.append_assoc, List.take_append_drop]
    exact h.in_order

theorem step (h : Account size tr s q) {a : Act} (hs : TtyStream.step s a = some (s', es)) :
    ∃ q', Account size (tr ++ es) s' q' := by
  cases a with
  | put fuel iov_buf iov_len =>
    obtain ⟨⟨n, t⟩, hput, heq⟩ := Option.map_eq_some_iff.mp hs
    obtain ⟨rfl, rfl⟩ := Prod.mk.inj heq
    exact ⟨_, h.put hput⟩
  | get fuel iov_buf iov_len =>
    obtain ⟨⟨n, out⟩, hget, heq⟩ := Option.map_eq_some_iff.mp hs
    obtain ⟨rfl, rfl⟩ := Prod.mk.inj heq
    exact ⟨_, h.get hget⟩

theorem sound (h : Account size tr s q) : Sound size tr s := by
  have hunread : s.unread = q := h.holds.unread_eq
  have hlen : (tr.flatMap Event.accepted).length = (tr.flatMap Event.delivered).length + q.length := by
    rw [h.in_order, List.length_append]
  refine ⟨?_, h.holds.head_lt, h.holds.tail_lt, h.exact, ?_, h.tail_eq, ?_, ?_, ?_, ?_, ?_⟩
  · rw [TtyStream.size, h.size_eq, Nat.add_sub_cancel]
  · rw [h.holds.head_eq, h.tail_eq, Nat.mod_add_mod, hlen]
  · rw [h.holds.length_eq, hlen]
  · rw [h.holds.length_eq]
    exact h.holds.isEmpty_iff
  · rw [h.holds.length_eq]
    exact h.holds.isFull_iff
  · rw [hunread]
    exact h.in_order
  · rw [hunread]
    exact h.holds.find

end Account

/-! ## Runs -/

variable {π : List (Taken TtyStream Act Event)}

/-- **A queue of bytes.**  Whatever the size and the buffers and lengths that callers pass, in every run the
positions stay inside the buffer and move by what is copied, the length is what was put and not yet got, bytes
come out in the order they went in, and `find` finds the first one. -/
theorem ring_sound (hr : Run (machine size junk) π s) : Sound size (events π) s := by
  have h : ∃ q, Account size (events π) s q := by
    induction hr with
    | start => exact ⟨[], account_new size junk⟩
    | snoc _ hstep ih =>
      obtain ⟨q, hq⟩ := ih
      rw [events_snoc]
      exact hq.step hstep
  obtain ⟨q, hq⟩ := h
  exact hq.sound

/-- Three bytes through a buffer for three, and two more round its end, one at a time. -/
theorem ring_sound_three : ∃ (π : List (Taken TtyStream Act Event)) (s : TtyStream),
    Run (machine 3 fun _ => 0) π s ∧ (events π).flatMap Event.accepted = [10, 11, 12, 20, 21] ∧
      (events π).flatMap Event.delivered = [10, 11, 12, 20] ∧ s.head_ = 1 ∧ Sound 3 (events π) s := by
  obtain ⟨π, s, hr, hp⟩ := exists_run_of_replay (M := machine 3 fun _ => 0)
    (p := fun (π : List (Taken TtyStream Act Event)) (s : TtyStream) =>
      decide ((events π).flatMap Event.accepted = [10, 11, 12, 20, 21] ∧
        (events π).flatMap Event.delivered = [10, 11, 12, 20] ∧ s.head_ = 1))
    [.put 9 (some fun i => .ofNat (10 + i)) 3, .get 9 (some fun _ => 0) 2,
      .put 9 (some fun i => .ofNat (20 + i)) 2, .put 9 (some fun i => .ofNat (21 + i)) 1, .get 9 (some fun _ => 0) 2] (by decide)
  obtain ⟨hacc, hdel, hhead⟩ := of_decide_eq_true hp
  exact ⟨π, s, hr, hacc, hdel, hhead, ring_sound hr⟩

end TtyStream

end Lasagne.Dev
