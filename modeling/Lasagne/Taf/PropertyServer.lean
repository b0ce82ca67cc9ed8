import Lasagne.Daf.PropertyManager

/-!
# Lasagne.Taf.PropertyServer — the properties of a process for its clients

`PropertyServer_impl` hands every request on to the repository of the process, and makes a system exception of what comes
back from it.  The clients' requests come in any order.

* `history_of_run` : what the requests of a run write, and when;
* `raised_iff` : which requests raise which exception, and that they have done nothing then;
* `set_is_read` : what a client was told is set is what every client reads, until it is set again or deleted.
-/

namespace Lasagne.Taf.PropertyServer

open Lasagne.Trans Lasagne.Daf

/-! ## The model -/

/-- The CORBA system exceptions, as far as the repository has them raised. -/
inductive SystemException
  | badParam
  | invIdent
  deriving DecidableEq, Repr

/-- The operations of the interface. -/
inductive Request
  | get_property (ident : Text)
  | set_property (ident value : Text)
  | del_property (ident : Text)
  | list_properties
  deriving DecidableEq, Repr

inductive Reply
  | text (val : Text)
  | done
  | sequence (list : List (Text × Text))
  | raised (exception : SystemException)
  deriving DecidableEq, Repr

/-- The handlers, in their order: `IllegalArgumentException` is a base of both. -/
def caught : PropertyError → SystemException
  | .notFound => .invIdent
  | .illegalProperty => .badParam

/-- The loop that fills the sequence. -/
def fillSequence (maxLen : ℕ) : ℕ → List (Text × Text) → List (Text × Text)
  | _, [] => []
  | idx, e :: rest => if idx ≥ maxLen then [] else e :: fillSequence maxLen (idx + 1) rest

section Model

variable (host : Host) (fuel : ℕ) (m : PropertyMap)

def get_property (ident : Text) : Option (Reply × PropertyMap) :=
  if ident ≠ [] then
    (host.getProperty fuel m ident true).map fun (r, m) =>
      match r with
      | .ok val => (.text val, m)
      | .error error => (.raised (caught error), m)
  else some (.raised .invIdent, m)

def set_property (ident value : Text) : Reply × PropertyMap :=
  if ident ≠ [] then
    match m.setProperty ident value with
    | (.ok rc, m) => if rc = 0 then (.done, m) else (.raised .invIdent, m)
    | (.error _, m) => (.raised .badParam, m)
  else (.raised .invIdent, m)

def del_property (ident : Text) : Reply × PropertyMap :=
  if ident ≠ [] then
    match m.delProperty ident with
    | (.ok (), m) => (.done, m)
    | (.error _, m) => (.raised .badParam, m)
  else (.raised .invIdent, m)

def list_properties : Option (Reply × PropertyMap) :=
  (host.listProperties fuel m).map fun (list, m) => (.sequence (fillSequence list.length 0 list), m)

def serve : Request → Option (Reply × PropertyMap)
  | .get_property ident => get_property host fuel m ident
  | .set_property ident value => some (set_property m ident value)
  | .del_property ident => some (del_property m ident)
  | .list_properties => list_properties host fuel m

end Model

/-- A request that has been answered, with the process as it was then. -/
structure Event where
  host : Host
  request : Request
  reply : Reply

/-- The server, with the repository from `m` on. -/
def server (m : PropertyMap) : Machine PropertyMap (Host × ℕ × Request) Event where
  init := m
  step m a := (serve a.1 a.2.1 m a.2.2).map fun (reply, m) => (m, [⟨a.1, a.2.2, reply⟩])

/-! ## What a run writes -/

/-- What a request can take from the environment, and what it writes. -/
def Event.change (e : Event) : Change Text Text :=
  match e.request, e.reply with
  | .set_property ident value, .done => .writes (trimString ident ' ') (some (trimString value ' '))
  | .del_property ident, .done => .writes (trimString ident ' ') none
  | .set_property _ _, _ | .del_property _, _ => .nothing
  | _, _ => .reads e.host.given

variable {host : Host} {fuel : ℕ} {m₀ m m' : PropertyMap}

theorem get_property_fills {ident : Text} {reply : Reply}
    (h : get_property host fuel m ident = some (reply, m')) : host.Fills m m' := by
  unfold get_property at h
  split at h
  · obtain ⟨⟨r, m₁⟩, hr, he⟩ := Option.map_eq_some_iff.mp h
    obtain rfl : m₁ = m' := by
      cases r <;> exact congrArg Prod.snd he
    exact Host.getAt_fills hr
  · obtain ⟨-, rfl⟩ := Prod.mk.inj (Option.some.inj h)
    exact Host.Fills.refl m

theorem serve_takes {request : Request} {reply : Reply} (h : serve host fuel m request = some (reply, m')) :
    (⟨host, request, reply⟩ : Event).change.Takes m.held m'.held := by
  cases request with
  | get_property ident => exact Change.takes_reads (get_property_fills h)
  | set_property ident value =>
    rw [serve, set_property] at h
    split at h
    · rcases m.setProperty_cases ident value with ⟨-, hset⟩ | ⟨-, -, hset⟩ | ⟨-, -, -, hset⟩
      · rw [hset] at h
        obtain ⟨rfl, rfl⟩ := Prod.mk.inj (Option.some.inj h)
        exact Change.takes_nothing m.held
      · rw [hset] at h
        obtain ⟨rfl, rfl⟩ := Prod.mk.inj (Option.some.inj h)
        exact Change.takes_writes (m.lookup_assign _ _)
      · rw [hset] at h
        obtain ⟨rfl, rfl⟩ := Prod.mk.inj (Option.some.inj h)
        exact Change.takes_nothing m.held
    · obtain ⟨rfl, rfl⟩ := Prod.mk.inj (Option.some.inj h)
      exact Change.takes_nothing m.held
  | del_property ident =>
    rw [serve, del_property] at h
    split at h
    · rcases m.delProperty_cases ident with ⟨-, hdel⟩ | ⟨-, hdel⟩
      · rw [hdel] at h
        obtain ⟨rfl, rfl⟩ := Prod.mk.inj (Option.some.inj h)
        exact Change.takes_nothing m.held
      · rw [hdel] at h
        obtain ⟨rfl, rfl⟩ := Prod.mk.inj (Option.some.inj h)
        exact Change.takes_writes (m.lookup_erase _)
    · obtain ⟨rfl, rfl⟩ := Prod.mk.inj (Option.some.inj h)
      exact Change.takes_nothing m.held
  | list_properties =>
    obtain ⟨r, hr, he⟩ := Option.map_eq_some_iff.mp h
    obtain rfl : r.2 = m' := congrArg Prod.snd he
    exact Change.takes_reads (Host.listProperties_fills hr)

variable {π : List (Taken PropertyMap (Host × ℕ × Request) Event)}

theorem history_of_run (hr : Run (server m₀) π m) : History m₀.held ((events π).map Event.change) m.held := by
  refine Run.inv (C := fun _ _ => True) (P := fun tr m => History m₀.held (tr.map Event.change) m.held) .nil
    (fun tr s a s' es _ h hstep => ?_) hr fun _ _ => trivial
  obtain ⟨⟨reply, m₁⟩, hserve, he⟩ := Option.map_eq_some_iff.mp hstep
  obtain ⟨rfl, rfl⟩ := Prod.mk.inj he
  rw [List.map_append]
  exact h.snoc (serve_takes hserve)

/-! ## What clients see -/

/-- The sequence that is returned has every property, in order. -/
theorem fillSequence_eq (list : List (Text × Text)) (idx : ℕ) :
    fillSequence (idx + list.length) idx list = list := by
  induction list generalizing idx with
  | nil => rfl
  | cons e rest ih =>
    rw [fillSequence, if_neg (by simp), List.length_cons, Nat.add_comm rest.length 1, ← Nat.add_assoc, ih]

/-- The identifier that a request is about. -/
def Request.ident : Request → Option Text
  | .get_property ident => some ident
  | .set_property ident _ => some ident
  | .del_property ident => some ident
  | .list_properties => none

/-- Nothing can be read or set where the request goes. -/
def Request.Futile (host : Host) (m : PropertyMap) : Request → Prop
  | .get_property ident => m.held (trimString ident ' ') = none ∧ host.given (trimString ident ' ') = none
  | .set_property ident value => trimString value ' ' = [] ∧ m.held (trimString ident ' ') ≠ none
  | .del_property _ => False
  | .list_properties => False

theorem get_property_eq (host : Host) (fuel : ℕ) (m : PropertyMap) {ident : Text} (hkey : trimString ident ' ' ≠ []) :
    get_property host (fuel + 1) m ident =
      match host.value m (trimString ident ' ') true with
      | none => some (.raised .invIdent, m)
      | some (val, sub, m) => (host.formatArgs fuel m val sub true).map fun (text, m) => (.text text, m) := by
  have hident : ident ≠ [] := by
    rintro rfl
    exact hkey rfl
  rw [get_property, if_pos hident, Host.getProperty, Host.getAt, if_neg hkey]
  cases host.value m (trimString ident ' ') true with
  | none => rfl
  | some v => exact Option.map_map _ _ _

theorem get_property_blank {ident : Text} (hident : ident ≠ []) (hkey : trimString ident ' ' = []) :
    get_property host (fuel + 1) m ident = some (.raised .badParam, m) := by
  rw [get_property, if_pos hident, Host.getProperty, Host.getAt, if_pos hkey]
  rfl

theorem get_property_zero {ident : Text} (hident : ident ≠ []) : get_property host 0 m ident = none := by
  rw [get_property, if_pos hident]
  rfl

/-- What a request is answered with, if it is: and nothing has changed where that is an exception. -/
theorem reply_iff {request : Request} {reply : Reply} (h : serve host fuel m request = some (reply, m')) :
    (reply = .raised .badParam ↔ ∃ ident, request.ident = some ident ∧ ident ≠ [] ∧ trimString ident ' ' = []) ∧
      (reply = .raised .invIdent ↔ request.ident = some [] ∨
        (∀ ident, request.ident = some ident → trimString ident ' ' ≠ []) ∧ request.Futile host m) ∧
      ∀ exception, reply = .raised exception → m' = m := by
  cases request with
  | get_property ident =>
    rw [serve] at h
    by_cases hident : ident = []
    · rw [hident, get_property, if_neg (not_not.mpr rfl)] at h
      obtain ⟨rfl, rfl⟩ := Prod.mk.inj (Option.some.inj h)
      simp [Request.ident, hident]
    · cases fuel with
      | zero => simp [get_property_zero hident] at h
      | succ fuel =>
        by_cases hkey : trimString ident ' ' = []
        · rw [get_property_blank hident hkey] at h
          obtain ⟨rfl, rfl⟩ := Prod.mk.inj (Option.some.inj h)
          simp [Request.ident, hident, hkey]
        · rw [get_property_eq host fuel m hkey] at h
          split at h
          · next hval =>
            obtain ⟨rfl, rfl⟩ := Prod.mk.inj (Option.some.inj h)
            have hfutile := Host.value_none_iff.mp hval
            simp [Request.ident, hident, hkey, Request.Futile, hfutile.1, hfutile.2 rfl]
          · next val sub m₁ hval =>
            have hfutile : ¬ (m.held (trimString ident ' ') = none ∧ host.given (trimString ident ' ') = none) := by
              intro hno
              rw [Host.value_none_iff.mpr ⟨hno.1, fun _ => hno.2⟩] at hval
              cases hval
            obtain ⟨r, -, he⟩ := Option.map_eq_some_iff.mp h
            obtain rfl : Reply.text r.1 = reply := congrArg Prod.fst he
            simp [Request.ident, hident, hkey, Request.Futile, hfutile]
  | set_property ident value =>
    rw [serve, set_property] at h
    by_cases hident : ident = []
    · rw [if_neg (not_not.mpr hident)] at h
      obtain ⟨rfl, rfl⟩ := Prod.mk.inj (Option.some.inj h)
      simp [Request.ident, hident]
    · rw [if_pos hident] at h
      rcases m.setProperty_cases ident value with ⟨hkey, hset⟩ | ⟨hkey, hload, hset⟩ | ⟨hkey, hvalue, hlookup, hset⟩
      · rw [hset] at h
        obtain ⟨rfl, rfl⟩ := Prod.mk.inj (Option.some.inj h)
        simp [Request.ident, hident, hkey]
      · rw [hset] at h
        obtain ⟨rfl, rfl⟩ := Prod.mk.inj (Option.some.inj h)
        have hfutile : ¬ (trimString value ' ' = [] ∧ m.held (trimString ident ' ') ≠ none) := by tauto
        simp [Request.ident, hident, hkey, Request.Futile, hfutile]
      · rw [hset] at h
        obtain ⟨rfl, rfl⟩ := Prod.mk.inj (Option.some.inj h)
        simp [Request.ident, hident, hkey, Request.Futile, hvalue, hlookup]
  | del_property ident =>
    rw [serve, del_property] at h
    by_cases hident : ident = []
    · rw [if_neg (not_not.mpr hident)] at h
      obtain ⟨rfl, rfl⟩ := Prod.mk.inj (Option.some.inj h)
      simp [Request.ident, hident]
    · rw [if_pos hident] at h
      rcases m.delProperty_cases ident with ⟨hkey, hdel⟩ | ⟨hkey, hdel⟩
      · rw [hdel] at h
        obtain ⟨rfl, rfl⟩ := Prod.mk.inj (Option.some.inj h)
        simp [Request.ident, hident, hkey]
      · rw [hdel] at h
        obtain ⟨rfl, rfl⟩ := Prod.mk.inj (Option.some.inj h)
        simp [Request.ident, hident, hkey, Request.Futile]
  | list_properties =>
    obtain ⟨r, -, he⟩ := Option.map_eq_some_iff.mp h
    obtain rfl := congrArg Prod.fst he
    simp [Request.ident, Request.Futile]

/-- Where there is an exception to be raised the request comes to an end. -/
theorem serve_ends {request : Request} (h : (∃ ident, request.ident = some ident ∧ trimString ident ' ' = []) ∨
    request.Futile host m) : ∃ r, serve host 1 m request = some r := by
  cases request with
  | get_property ident =>
    by_cases hident : ident = []
    · exact ⟨_, if_neg (not_not.mpr hident)⟩
    by_cases hkey : trimString ident ' ' = []
    · exact ⟨_, get_property_blank hident hkey⟩
    · rcases h with ⟨ident', hident', hblank⟩ | hfutile
      · obtain rfl := Option.some.inj hident'
        exact absurd hblank hkey
      · exact ⟨_, by rw [serve, get_property_eq host 0 m hkey, Host.value_none_iff.mpr ⟨hfutile.1, fun _ => hfutile.2⟩]⟩
  | set_property ident value => exact ⟨_, rfl⟩
  | del_property ident => exact ⟨_, rfl⟩
  | list_properties =>
    rcases h with ⟨ident, hident, -⟩ | hfutile
    · cases hident
    · exact hfutile.elim

/-- A blank identifier raises `BAD_PARAM`; no identifier at all, a property that there is not, and one that would be made
empty raise `INV_IDENT`; nothing else raises either, and nothing has changed then. -/
theorem raised_iff (host : Host) (m : PropertyMap) (request : Request) :
    ((∃ fuel m', serve host fuel m request = some (.raised .badParam, m')) ↔
        ∃ ident, request.ident = some ident ∧ ident ≠ [] ∧ trimString ident ' ' = []) ∧
      ((∃ fuel m', serve host fuel m request = some (.raised .invIdent, m')) ↔ request.ident = some [] ∨
        (∀ ident, request.ident = some ident → trimString ident ' ' ≠ []) ∧ request.Futile host m) ∧
      ∀ fuel exception m', serve host fuel m request = some (.raised exception, m') → m' = m := by
  refine ⟨⟨?_, ?_⟩, ⟨?_, ?_⟩, fun fuel exception m' h => (reply_iff h).2.2 exception rfl⟩
  · rintro ⟨fuel, m', h⟩
    exact (reply_iff h).1.mp rfl
  · intro hbad
    have ⟨ident, hident, _, hblank⟩ := hbad
    obtain ⟨⟨reply, m'⟩, h⟩ : ∃ r, serve host 1 m request = some r := serve_ends (.inl ⟨ident, hident, hblank⟩)
    obtain rfl := (reply_iff h).1.mpr hbad
    exact ⟨1, m', h⟩
  · rintro ⟨fuel, m', h⟩
    exact (reply_iff h).2.1.mp rfl
  · intro hinv
    obtain ⟨⟨reply, m'⟩, h⟩ : ∃ r, serve host 1 m request = some r := by
      rcases hinv with hident | ⟨-, hfutile⟩
      · exact serve_ends (.inl ⟨[], hident, rfl⟩)
      · exact serve_ends (.inr hfutile)
    obtain rfl := (reply_iff h).2.1.mpr hinv
    exact ⟨1, m', h⟩

/-- Nobody has set `A`. -/
theorem raised_iff_unset : ∃ fuel m', serve Host.bareHost fuel [] (.get_property ['A']) = some (.raised .invIdent, m') := by
  refine (raised_iff Host.bareHost [] (.get_property ['A'])).2.1.mpr (.inr ⟨fun ident h => ?_, rfl, rfl⟩)
  obtain rfl := Option.some.inj h
  decide

/-- A property that a client was told is set has a name. -/
theorem named_of_done (hr : Run (server m₀) π m) : ∀ e ∈ events π, ∀ ident value,
    e.request = .set_property ident value → e.reply = .done → trimString ident ' ' ≠ [] := by
  refine Run.inv (C := fun _ _ => True) (P := fun tr _ => ∀ e ∈ tr, ∀ ident value,
    e.request = .set_property ident value → e.reply = .done → trimString ident ' ' ≠ []) (by simp)
    (fun tr s a s' es _ h hstep => ?_) hr fun _ _ => trivial
  obtain ⟨⟨reply, m₁⟩, hserve, he⟩ := Option.map_eq_some_iff.mp hstep
  obtain ⟨rfl, rfl⟩ := Prod.mk.inj he
  refine List.forall_mem_append.mpr ⟨h, List.forall_mem_singleton.mpr fun ident value hrequest hreply hkey => ?_⟩
  obtain ⟨hbad, hinv, -⟩ := reply_iff hserve
  dsimp only at hrequest hreply
  rw [hrequest, hreply] at hbad hinv
  by_cases hident : ident = []
  · exact absurd (hinv.mpr (.inl (by rw [hident]; rfl))) (by simp)
  · exact absurd (hbad.mpr ⟨ident, rfl, hident, hkey⟩) (by simp)

/-- What was set is read by all until it is set again or deleted, whatever was requested in between. -/
theorem set_is_read (hr : Run (server m₀) π m) {pre post : List Event} {e : Event}
    (hπ : events π = pre ++ e :: post) {ident value : Text} (hrequest : e.request = .set_property ident value)
    (hreply : e.reply = .done) (hpost : ∀ e' ∈ post, e'.change.write (trimString ident ' ') = none)
    {ident' : Text} (hident : trimString ident' ' ' = trimString ident ' ') (host : Host) (fuel : ℕ) :
    get_property host (fuel + 1) m ident' =
      (host.formatArgs fuel m (trimString value ' ') true true).map fun (text, m) => (.text text, m) := by
  have hkey : trimString ident ' ' ≠ [] :=
    named_of_done hr e (by rw [hπ]; exact List.mem_append_right _ List.mem_cons_self) ident value hrequest hreply
  have hwrite : e.change.write (trimString ident ' ') = some (some (trimString value ' ')) := by
    rw [Event.change, hrequest, hreply]
    exact if_pos rfl
  have hheld : m.held (trimString ident ' ') = some (trimString value ' ') := by
    have hist := history_of_run hr
    rw [hπ, List.map_append, List.map_cons] at hist
    exact hist.written (lastWrite_eq hwrite (List.forall_mem_map.mpr hpost))
  have hvalue : host.value m (trimString ident ' ') true = some (trimString value ' ', true, m) := by
    have hlookup : m.lookup (trimString ident ' ') = some (trimString value ' ') := hheld
    unfold Host.value
    rw [hlookup]
  rw [get_property_eq host fuel m (hident ▸ hkey), hident, hvalue]

/-- One client sets `A`, another one deletes `B`, and a third one reads `A`. -/
theorem set_is_read_between : get_property Host.bareHost 9 [(['A'], ['5'])] ['A', ' '] =
    some (.text ['5'], [(['A'], ['5'])]) := by
  let first : Event := ⟨Host.bareHost, .set_property ['A'] ['5'], .done⟩
  let second : Event := ⟨Host.bareHost, .del_property ['B'], .done⟩
  have hr : Run (server []) ([] ++ [⟨[], (Host.bareHost, 0, first.request), [first]⟩] ++
      [⟨[(['A'], ['5'])], (Host.bareHost, 0, second.request), [second]⟩]) [(['A'], ['5'])] := .snoc (.snoc .start rfl) rfl
  have hpost : ∀ e' ∈ [second], e'.change.write ['A'] = none := List.forall_mem_singleton.mpr rfl
  exact (set_is_read hr (rfl : _ = [] ++ first :: [second]) rfl rfl hpost rfl Host.bareHost 8).trans rfl

end Lasagne.Taf.PropertyServer
