import Sandbox.Proofs.Realm.TwinCalls

/-! # Portability

Those who use a realm know its spaces by their owners, and are told values and no entries or
addresses of arrays. Whatever they ask for, one request after the other, the answers do not
depend on the architecture nor on where the allocator puts its arrays, and neither do its counts
and the paths at which the trees have words.
-/

namespace Sandbox

open AddressSpace Walk

variable {A A' : Architecture} {R : Realm A} {R' : Realm A'} {owner : OwnerId}

inductive Request
  | create (owner : OwnerId)
  | createAbove (base : OwnerId) (start : VirtualAddress) (owner : OwnerId)
  | change (owner : OwnerId) (ch : Change)
  | freeze (owner : OwnerId)
  | drop (owner : OwnerId)
  | lookup (owner : OwnerId) (a : VirtualAddress)
  | lookupFirst (owner : OwnerId) (a : VirtualAddress)
  | isEmpty (owner : OwnerId) (a : VirtualAddress) (length : Word)

inductive Reply
  /-- There is no space of that owner. -/
  | absent
  | done (r : Except Stop Unit)
  | flag (r : Except Stop Bool)
  | found (r : Except Stop (Option Mapping))
  deriving DecidableEq

/-- What can be seen of a realm without a look at entries and addresses of arrays. -/
structure Outline where
  tally : Tally
  /-- Owners of the spaces, with the paths at which their trees have a word. -/
  trees : List (OwnerId × List (List Nat))
  deriving DecidableEq

namespace Realm

def outline (R : Realm A) : Outline :=
  ⟨R.memory.tally, R.spaces.map fun s => (s.owner, (s.words R.memory).map Prod.fst)⟩

def space? (R : Realm A) (owner : OwnerId) : Option (AddressSpace A) :=
  R.spaces.find? fun s => s.owner = owner

def ask (R : Realm A) (owner : OwnerId) (f : AddressSpace A → Reply × Realm A) : Reply × Realm A :=
  ((R.space? owner).map f).getD (.absent, R)

def look {β : Type} (R : Realm A) (act : Action Memory β) (reply : Except Stop β → Reply) :
    Reply × Realm A :=
  (reply (act.outcome R.memory), ⟨act.final R.memory, R.spaces⟩)

end Realm

namespace Request

def serve (R : Realm A) : Request → Reply × Realm A
  | create owner =>
    (.done (((AddressSpace.create A owner).outcome R.memory).map fun _ => ()),
      (Call.create owner).next R)
  | createAbove base start owner => R.ask base fun b =>
    (.done (((b.createAbove start owner).outcome R.memory).map fun _ => ()),
      (Call.createAbove b start owner).next R)
  | change owner ch => R.ask owner fun s =>
    (.flag ((ch.run s).outcome R.memory), (Call.change s ch).next R)
  | freeze owner => R.ask owner fun s => (.done (.ok ()), (Call.freeze s).next R)
  | drop owner => R.ask owner fun s =>
    (.done (s.teardown.outcome R.memory), (Call.drop s).next R)
  | lookup owner a => R.ask owner fun s => R.look (s.lookup a) .found
  | lookupFirst owner a => R.ask owner fun s => R.look (s.lookupFirst a) .found
  | isEmpty owner a length => R.ask owner fun s => R.look (s.isEmpty a length) .flag

def Allowed (R : Realm A) : Request → Prop
  | create owner | createAbove _ _ owner => ∀ t ∈ R.spaces, t.owner.number < owner.number
  | change owner _ | freeze owner | drop owner => ∀ t ∈ R.spaces, ∀ u ∈ t.upper, u.owner ≠ owner
  | lookup _ _ | lookupFirst _ _ | isEmpty _ _ _ => True

instance (R : Realm A) : (q : Request) → Decidable (q.Allowed R)
  | create owner | createAbove _ _ owner =>
    inferInstanceAs (Decidable (∀ t ∈ R.spaces, t.owner.number < owner.number))
  | change owner _ | freeze owner | drop owner =>
    inferInstanceAs (Decidable (∀ t ∈ R.spaces, ∀ u ∈ t.upper, u.owner ≠ owner))
  | lookup _ _ | lookupFirst _ _ | isEmpty _ _ _ => inferInstanceAs (Decidable True)

/-- Pages are mapped to frames below 2 ^ 48. -/
def Low : Request → Prop
  | change _ ch => ch.Low
  | _ => True

end Request

namespace Realm

/-- All answers, each with the outline of what it left behind. -/
def trace (R : Realm A) : List Request → List (Reply × Outline)
  | [] => []
  | q :: requests => ((q.serve R).1, (q.serve R).2.outline) :: (q.serve R).2.trace requests

def after (R : Realm A) (requests : List Request) : Realm A :=
  requests.foldl (fun R q => (q.serve R).2) R

def AllAllowed (R : Realm A) : List Request → Prop
  | [] => True
  | q :: requests => q.Allowed R ∧ (q.serve R).2.AllAllowed requests

instance decidableAllAllowed : (R : Realm A) → (requests : List Request) →
    Decidable (R.AllAllowed requests)
  | _, [] => inferInstanceAs (Decidable True)
  | R, q :: requests =>
    have : Decidable ((q.serve R).2.AllAllowed requests) := decidableAllAllowed _ requests
    inferInstanceAs (Decidable (q.Allowed R ∧ (q.serve R).2.AllAllowed requests))

theorem before_ask {f : AddressSpace A → Reply × Realm A}
    (hf : ∀ s, R.memory.Before (f s).2.memory) : R.memory.Before (R.ask owner f).2.memory := by
  unfold ask
  cases R.space? owner with
  | none => exact .refl R.memory
  | some s => exact hf s

/-- What changes nothing leaves the realm behind as it was. -/
theorem look_eq {β : Type} {act : Action Memory β} (h : act.Leaves id)
    (reply : Except Stop β → Reply) : R.look act reply = (reply (act.outcome R.memory), R) := by
  have hsame : act.final R.memory = R.memory := h.final_eq R.memory
  rw [look, hsame]

theorem before_serve (R : Realm A) (q : Request) : R.memory.Before (q.serve R).2.memory := by
  have hlook {β : Type} {act : Action Memory β} (h : act.Leaves id)
      (reply : Except Stop β → Reply) : R.memory.Before (R.look act reply).2.memory := by
    rw [look_eq h]
    exact .refl R.memory
  cases q with
  | create owner => exact Call.before _ R
  | createAbove base start owner => exact before_ask fun b => Call.before _ R
  | change owner ch => exact before_ask fun s => Call.before _ R
  | freeze owner => exact before_ask fun s => Call.before _ R
  | drop owner => exact before_ask fun s => Call.before _ R
  | lookup owner a => exact before_ask fun s => hlook (s.leaves_lookup a) _
  | lookupFirst owner a => exact before_ask fun s => hlook (s.leaves_lookupFirst a) _
  | isEmpty owner a length => exact before_ask fun s => hlook (s.leaves_isEmpty a length) _

theorem before_after (R : Realm A) (requests : List Request) :
    R.memory.Before (R.after requests).memory := by
  induction requests generalizing R with
  | nil => exact .refl R.memory
  | cons q requests ih => exact (R.before_serve q).trans (ih _)

def AnsweredAlike (x : Reply × Realm A) (x' : Reply × Realm A') : Prop :=
  x.2.memory.Placed A.codec → x'.2.memory.Placed A'.codec → x'.1 = x.1 ∧ x.2.Twins x'.2

namespace Twins

theorem outline_eq (h : R.Twins R') : R'.outline = R.outline := by
  have htrees : List.Forall₂ (· = ·)
      (R.spaces.map fun s => (s.owner, (s.words R.memory).map Prod.fst))
      (R'.spaces.map fun s => (s.owner, (s.words R'.memory).map Prod.fst)) := by
    refine List.forall₂_map_left_iff.mpr (List.forall₂_map_right_iff.mpr (h.pairs.imp ?_))
    rintro s s' ⟨hs, hs', ha⟩
    rw [ha.owner, words_paths_eq h.sound.intact hs h.sound'.intact hs' ha.shape]
  rw [List.forall₂_eq_eq_eq] at htrees
  rw [outline, outline, htrees, h.abreast.tally]

theorem rel_space? (h : R.Twins R') (owner : OwnerId) :
    Option.Rel (fun s s' => s.owner = owner ∧ s ∈ R.spaces ∧ s' ∈ R'.spaces ∧
      s.Alike R.memory s' R'.memory) (R.space? owner) (R'.space? owner) := by
  have hfind {P : AddressSpace A → AddressSpace A' → Prop} {L L'} (hrel : List.Forall₂ P L L')
      (hP : ∀ s s', P s s' → s'.owner = s.owner) :
      Option.Rel (fun s s' => s.owner = owner ∧ P s s') (L.find? fun s => s.owner = owner)
        (L'.find? fun s => s.owner = owner) := by
    induction hrel with
    | nil => exact .none
    | @cons s s' L L' hhead _ ih =>
      rw [List.find?_cons, List.find?_cons, hP s s' hhead]
      by_cases howner : s.owner = owner
      · rw [decide_eq_true howner]
        exact .some ⟨howner, hhead⟩
      · rw [decide_eq_false howner]
        exact ih
  exact hfind h.pairs fun s s' hpair => hpair.2.2.owner

theorem answeredAlike_ask (h : R.Twins R') {f : AddressSpace A → Reply × Realm A}
    {f' : AddressSpace A' → Reply × Realm A'}
    (hf : ∀ s ∈ R.spaces, ∀ s' ∈ R'.spaces, s.owner = owner → s.Alike R.memory s' R'.memory →
      AnsweredAlike (f s) (f' s')) : AnsweredAlike (R.ask owner f) (R'.ask owner f') := by
  have hrel := h.rel_space? owner
  unfold Realm.ask
  generalize R.space? owner = x, R'.space? owner = x' at hrel
  cases hrel with
  | none => exact fun _ _ => ⟨rfl, h⟩
  | some hpair => exact hf _ hpair.2.1 _ hpair.2.2.1 hpair.1 hpair.2.2.2

theorem answeredAlike_look (h : R.Twins R') {β : Type} {act act' : Action Memory β}
    (hact : act.Leaves id) (hact' : act'.Leaves id) (reply : Except Stop β → Reply)
    (hout : R.memory.Placed A.codec → R'.memory.Placed A'.codec →
      act'.outcome R'.memory = act.outcome R.memory) :
    AnsweredAlike (R.look act reply) (R'.look act' reply) := by
  rw [look_eq hact, look_eq hact']
  exact fun hp hp' => ⟨congrArg reply (hout hp hp'), h⟩

theorem answeredAlike_serve (h : R.Twins R') {q : Request} (hallowed : q.Allowed R) (hlow : q.Low) :
    AnsweredAlike (q.serve R) (q.serve R') := by
  cases q with
  | create owner =>
    intro hp hp'
    obtain ⟨hout, htwins⟩ := h.twins_create hallowed hp hp'
    exact ⟨congrArg Reply.done hout, htwins⟩
  | createAbove base start owner =>
    apply h.answeredAlike_ask
    intro b hb b' hb' _ ha hp hp'
    obtain ⟨hout, htwins⟩ := h.twins_createAbove hb hb' ha start hallowed hp hp'
    exact ⟨congrArg Reply.done hout, htwins⟩
  | change owner ch =>
    apply h.answeredAlike_ask
    rintro s hs s' hs' rfl ha hp hp'
    obtain ⟨hout, htwins⟩ := h.twins_change hs hs' ha hallowed ch hlow hp hp'
    exact ⟨congrArg Reply.flag hout, htwins⟩
  | freeze owner =>
    apply h.answeredAlike_ask
    rintro s hs s' hs' rfl ha - -
    exact ⟨rfl, h.twins_freeze hs hs' ha⟩
  | drop owner =>
    apply h.answeredAlike_ask
    rintro s hs s' hs' rfl ha hp hp'
    obtain ⟨hout, htwins⟩ := h.twins_drop hs hs' ha hallowed hp hp'
    exact ⟨congrArg Reply.done hout, htwins⟩
  | lookup owner a =>
    apply h.answeredAlike_ask
    intro s hs s' hs' _ ha
    exact h.answeredAlike_look (s.leaves_lookup a) (s'.leaves_lookup a) _ fun hp hp' =>
      h.lookup_outcome_eq hs hs' ha hp hp' a
  | lookupFirst owner a =>
    apply h.answeredAlike_ask
    intro s hs s' hs' _ ha
    exact h.answeredAlike_look (s.leaves_lookupFirst a) (s'.leaves_lookupFirst a) _ fun hp hp' =>
      h.lookupFirst_outcome_eq hs hs' ha hp hp' a
  | isEmpty owner a length =>
    apply h.answeredAlike_ask
    intro s hs s' hs' _ ha
    exact h.answeredAlike_look (s.leaves_isEmpty a length) (s'.leaves_isEmpty a length) _ fun hp hp' =>
      h.isEmpty_outcome_eq hs hs' ha hp hp' a length

/-- All requests are answered alike by twins. -/
theorem trace_eq (h : R.Twins R') {requests : List Request} (hallowed : R.AllAllowed requests)
    (hlow : ∀ q ∈ requests, q.Low) (hp : (R.after requests).memory.Placed A.codec)
    (hp' : (R'.after requests).memory.Placed A'.codec) :
    R'.trace requests = R.trace requests := by
  induction requests generalizing R R' with
  | nil => rfl
  | cons q requests ih =>
    obtain ⟨hq, hrest⟩ := hallowed
    obtain ⟨hlowq, hlow⟩ := List.forall_mem_cons.mp hlow
    obtain ⟨hreply, htwins⟩ := h.answeredAlike_serve hq hlowq (hp.of_before (before_after _ requests))
      (hp'.of_before (before_after _ requests))
    rw [trace, trace, hreply, htwins.outline_eq, ih htwins hrest hlow hp hp']

end Twins

theorem twins_start {m m' : Memory} (hm : m.Idle) (hm' : m'.Idle) (h : m.Abreast m') :
    (⟨m, []⟩ : Realm A).Twins (⟨m', []⟩ : Realm A') :=
  ⟨sound_start hm, sound_start hm', h, .nil⟩

/-- Two architectures are asked for the same, in memories with one limit that have counted the
same and in which nothing is live. As long as arrays and frames lie below 2 ^ 48, the answers are
the same, and after each of them the counts and the paths at which the trees have a word. -/
theorem trace_portable {m m' : Memory} (hm : m.Idle) (hm' : m'.Idle) (h : m.Abreast m')
    {requests : List Request} (hallowed : (⟨m, []⟩ : Realm A).AllAllowed requests)
    (hlow : ∀ q ∈ requests, q.Low)
    (hp : ((⟨m, []⟩ : Realm A).after requests).memory.PlacedLow)
    (hp' : ((⟨m', []⟩ : Realm A').after requests).memory.PlacedLow) :
    (⟨m', []⟩ : Realm A').trace requests = (⟨m, []⟩ : Realm A).trace requests :=
  (twins_start hm hm' h).trace_eq hallowed hlow (hp.placed A) (hp'.placed A')

/-- Two pages are mapped in a space that shares the upper half of another one. For the second
page an array is lacking where five are the limit. -/
def sharingRequests : List Request :=
  [.create ⟨1⟩, .createAbove ⟨1⟩ ⟨upperBottom⟩ ⟨2⟩,
    .change ⟨2⟩ (.map ⟨0x5000⟩ 0x1000 (.forUser .readWrite) ⟨0x90000000⟩),
    .change ⟨2⟩ (.map ⟨0x200000⟩ 0x1000 (.forUser .readWrite) ⟨0x90001000⟩),
    .lookup ⟨2⟩ ⟨0x5abc⟩]

theorem low_sharingRequests : ∀ q ∈ sharingRequests, q.Low := by
  simp only [sharingRequests, List.forall_mem_cons]
  exact ⟨trivial, trivial, Change.low_map (.forUser .readWrite) (by decide),
    Change.low_map (.forUser .readWrite) (by decide), trivial, nofun⟩

/-- The answers of one architecture are read off another one. -/
theorem trace_portable_sharing :
    let R : Realm .riscv64 := ⟨.startingAt 0x1000000 (some 5), []⟩
    let R' : Realm .arm64 := ⟨.startingAt 0x3000000 (some 5), []⟩
    R'.trace sharingRequests = R.trace sharingRequests ∧
    (R'.trace sharingRequests).map Prod.fst = [.done (.ok ()), .done (.ok ()), .flag (.ok false),
      .flag (.error (.refusal .outOfMemory)),
      .found (.ok (some ⟨⟨0x5000⟩, ⟨0x90000000⟩, pageSize, .forUser .readWrite⟩))] := by
  intro R R'
  have hidle (base : Word) : (Memory.startingAt base (some 5)).Idle :=
    Memory.Pristine.idle ⟨rfl, rfl, rfl, rfl⟩
  have hplaced := placedLow_startingAt (R.before_after sharingRequests) (by decide)
    (by decide +kernel)
  have hplaced' := placedLow_startingAt (R'.before_after sharingRequests) (by decide)
    (by decide +kernel)
  have heq : R'.trace sharingRequests = R.trace sharingRequests :=
    trace_portable (hidle 0x1000000) (hidle 0x3000000) ⟨rfl, rfl⟩ (by decide +kernel)
      low_sharingRequests hplaced hplaced'
  refine ⟨heq, ?_⟩
  rw [heq]
  decide +kernel

end Realm

end Sandbox
