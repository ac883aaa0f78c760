/- GID: DragonsNet/Native/EchoSlots
   source: native/echo_uring.c
   digest: What each slot of the echo host has in flight, and that it echoes its connection. -/

import DragonsNet.Native.EchoUring
import DragonsNet.Native.NntpRingCounts
import Mathlib.Algebra.Order.BigOperators.Group.Finset

set_option autoImplicit false

namespace DragonsNet.Native.EchoUring

open Lib
open Lib.Cells
open Native.EchoKernel
open Native.NntpRing (token tokenKind tokenSlot tokenGen)
open Native.NntpRingCounts (tokenKind_token tokenSlot_token tokenGen_token)

def Kind.ofConn : Kind → Bool
  | .recv | .send | .cancel => true
  | _ => false

def isOf (i token : ℕ) : Bool :=
  match Kind.ofCode (tokenKind token) with
  | some kind => kind.ofConn && tokenSlot token == i
  | none => false

@[simp] theorem ofCode_tok (kind : Kind) (slot gen : ℕ) :
    Kind.ofCode (tokenKind (kind.tok slot gen)) = some kind := by
  rw [Kind.tok, tokenKind_token]
  cases kind <;> rfl

theorem tokenSlot_tok {slot : ℕ} (hslot : slot < 2 ^ 24) (kind : Kind) (gen : ℕ) :
    tokenSlot (kind.tok slot gen) = slot := by
  rw [Kind.tok, tokenSlot_token, Nat.mod_eq_of_lt hslot]

theorem tokenGen_tok {gen : ℕ} (hgen : gen < 2 ^ 32) (kind : Kind) (slot : ℕ) :
    tokenGen (kind.tok slot gen) = gen := by
  rw [Kind.tok, tokenGen_token, Nat.mod_eq_of_lt hgen]

private theorem isOf_tok {slot : ℕ} (hslot : slot < 2 ^ 24) (i : ℕ) (kind : Kind) (gen : ℕ) :
    isOf i (kind.tok slot gen) = (kind.ofConn && slot == i) := by
  rw [isOf, ofCode_tok, tokenSlot_tok hslot]

variable {cfg : Config} {i : Fin cfg.slots} {s : Slot} {t : Talk} {talks : Talks}
  {x : Item (Op cfg.slots)} {before after : List (Item (Op cfg.slots))}

/-- What went over the socket of the slot's connection. -/
def Slot.talk (talks : Talks) (s : Slot) : Talk := (s.fd.bind fun fd => (talks fd).head?).getD .new

private theorem Slot.talk_update {x : ℕ} (hfd : s.fd = some x) (t : Talk) (earlier : List Talk) :
    s.talk (Function.update talks x (t :: earlier)) = t := by
  rw [Slot.talk, hfd, Option.bind_some, Function.update_self]
  rfl

private theorem Slot.talk_head {x : ℕ} {earlier : List Talk} (hfd : s.fd = some x)
    (htalks : talks x = t :: earlier) : s.talk talks = t := by
  rw [Slot.talk, hfd, Option.bind_some, htalks]
  rfl

theorem Slot.talk_update_ne {x : ℕ} (hfd : s.fd ≠ some x) (l : List Talk) :
    s.talk (Function.update talks x l) = s.talk talks := by
  cases hs : s.fd with
  | none => rw [Slot.talk, Slot.talk, hs, Option.bind_none, Option.bind_none]
  | some y =>
    have hne : y ≠ x := by
      rintro rfl
      exact hfd hs
    rw [Slot.talk, Slot.talk, hs, Option.bind_some, Option.bind_some, Function.update_of_ne hne]

theorem slot_lt (i : Fin cfg.slots) : (i : ℕ) < 2 ^ 24 := lt_of_lt_of_le i.isLt cfg.slots_le

def slotItems (i : Fin cfg.slots) (pending : List (Item (Op cfg.slots))) :
    List (Item (Op cfg.slots)) :=
  pending.filter fun x => isOf i x.token

/-- A slot's receive or send, from its submission to its completion, and what it means for the
octets that went in and out. -/
inductive Data (i : Fin cfg.slots) (s : Slot) (t : Talk) : Item (Op cfg.slots) → Prop where
  | receiving : s.length = 0 → t.received = t.delivered →
    Data i s t (.flying (Kind.recv.tok i s.gen) (.recv s.fd i cfg.capacity))
  | received (n : ℕ) : 0 < n → n ≤ cfg.capacity →
    t.received = t.delivered ++ s.input.take n →
    Data i s t (.done ⟨Kind.recv.tok i s.gen, n⟩)
  | receivedNone (z : ℤ) : z ≤ 0 → t.received = t.delivered →
    Data i s t (.done ⟨Kind.recv.tok i s.gen, z⟩)
  | sending : s.sent < s.length → s.length ≤ cfg.capacity →
    t.received = t.delivered ++ (s.out.take s.length).drop s.sent →
    Data i s t (.flying (Kind.send.tok i s.gen)
      (.send s.fd i s.sent (min (s.length - s.sent) cfg.writeChunk)))
  | sentSome (n : ℕ) : 0 < n → n ≤ s.length - s.sent → s.length ≤ cfg.capacity →
    t.received = t.delivered ++ (s.out.take s.length).drop (s.sent + n) →
    Data i s t (.done ⟨Kind.send.tok i s.gen, n⟩)
  | sentNone (z : ℤ) : z ≤ 0 → s.length ≤ cfg.capacity →
    t.received = t.delivered ++ (s.out.take s.length).drop s.sent →
    Data i s t (.done ⟨Kind.send.tok i s.gen, z⟩)

inductive Cancel (i : Fin cfg.slots) (s : Slot) : Item (Op cfg.slots) → Prop where
  | cancelling : Cancel i s (.flying (Kind.cancel.tok i s.gen) (.cancelFd s.fd))
  | cancelled (z : ℤ) : Cancel i s (.done ⟨Kind.cancel.tok i s.gen, z⟩)

inductive SlotOk (i : Fin cfg.slots) (s : Slot) (t : Talk) (items : List (Item (Op cfg.slots))) :
    Prop where
  | free : s.fd = none → s.ops = 0 → s.closing = false → items = [] → SlotOk i s t items
  | serving (x : Item (Op cfg.slots)) : s.fd.isSome = true → s.ops = 1 → s.closing = false →
    items = [x] → Data i s t x → SlotOk i s t items
  | closingBoth (x c : Item (Op cfg.slots)) : s.fd.isSome = true → s.ops = 2 →
    s.closing = true → items.Perm [x, c] → Data i s t x → Cancel i s c → SlotOk i s t items
  | closingData (x : Item (Op cfg.slots)) : s.fd.isSome = true → s.ops = 1 → s.closing = true →
    items = [x] → Data i s t x → SlotOk i s t items
  | closingCancel (c : Item (Op cfg.slots)) : s.fd.isSome = true → s.ops = 1 →
    s.closing = true → items = [c] → Cancel i s c → SlotOk i s t items

/-- The buffers have the size the source gives them, and the generation fits its word. -/
structure Sized (cfg : Config) (s : Slot) : Prop where
  input : s.input.length = cfg.capacity
  out : s.out.length = cfg.capacity
  gen : s.gen < 2 ^ 32

theorem Sized.of_eq {s t : Slot} (h : Sized cfg s) (hinput : t.input = s.input)
    (hout : t.out = s.out) (hgen : t.gen = s.gen) : Sized cfg t :=
  ⟨hinput ▸ h.input, hout ▸ h.out, hgen ▸ h.gen⟩

structure Bare (cfg : Config) (s : Slot) (items : List (Item (Op cfg.slots))) : Prop where
  fd : s.fd.isSome = true
  ops : s.ops = 0
  items : items = []

theorem Data.echoed (D : Data i s t x) : t.Echoed cfg.capacity := by
  cases D with
  | receiving _ htalk => exact ⟨[], by rw [htalk, List.append_nil], Nat.zero_le _⟩
  | received n _ hn htalk =>
    refine ⟨_, htalk, ?_⟩
    rw [List.length_take]
    omega
  | receivedNone _ _ htalk => exact ⟨[], by rw [htalk, List.append_nil], Nat.zero_le _⟩
  | sending _ hlength htalk | sentSome n _ _ hlength htalk | sentNone _ _ hlength htalk =>
    refine ⟨_, htalk, ?_⟩
    rw [List.length_drop, List.length_take]
    omega

private theorem Cancel.flying_op {token : ℕ} {op : Op cfg.slots}
    (C : Cancel i s (.flying token op)) :
    op = .cancelFd s.fd := by
  cases C with
  | cancelling => rfl

private theorem Data.flying_op {token : ℕ} {op : Op cfg.slots} (D : Data i s t (.flying token op)) :
    op ≠ .cancelFd s.fd := by
  intro hop
  cases D with
  | receiving => cases hop
  | sending => cases hop

private theorem Data.of_slot (D : Data i s t x) (ops : ℕ) (closing : Bool) :
    Data i { s with ops, closing } t x := by
  cases D with
  | receiving hlength htalk => exact .receiving hlength htalk
  | received n hpos hn htalk => exact .received n hpos hn htalk
  | receivedNone z hz htalk => exact .receivedNone z hz htalk
  | sending hsent hlength htalk => exact .sending hsent hlength htalk
  | sentSome n hpos hn hlength htalk => exact .sentSome n hpos hn hlength htalk
  | sentNone z hz hlength htalk => exact .sentNone z hz hlength htalk

theorem SlotOk.mem {items : List (Item (Op cfg.slots))} (O : SlotOk i s t items) (hx : x ∈ items) :
    Data i s t x ∨ Cancel i s x := by
  cases O with
  | free _ _ _ hitems => rw [hitems] at hx; cases hx
  | serving y _ _ _ hitems D =>
    rw [hitems, List.mem_singleton] at hx
    exact .inl (hx ▸ D)
  | closingBoth y c _ _ _ hperm D C =>
    rcases List.mem_pair.mp (hperm.mem_iff.mp hx) with rfl | rfl
    · exact .inl D
    · exact .inr C
  | closingData y _ _ _ hitems D =>
    rw [hitems, List.mem_singleton] at hx
    exact .inl (hx ▸ D)
  | closingCancel c _ _ _ hitems C =>
    rw [hitems, List.mem_singleton] at hx
    exact .inr (hx ▸ C)

private theorem append_cons_eq_singleton {α : Type} {x y : α} {before after : List α}
    (h : before ++ x :: after = [y]) : x = y ∧ before = [] ∧ after = [] := by
  cases before with
  | nil =>
    obtain ⟨rfl, rfl⟩ := List.cons.inj h
    exact ⟨rfl, rfl, rfl⟩
  | cons b before =>
    have htail := (List.cons.inj h).2
    exact absurd htail (List.append_ne_nil_of_right_ne_nil _ (List.cons_ne_nil x after))

private theorem perm_pair_middle {α : Type} {x y c : α} {before after : List α}
    (h : (before ++ x :: after).Perm [y, c]) :
    (x = y ∧ before ++ after = [c]) ∨ (x = c ∧ before ++ after = [y]) := by
  have hmoved : (x :: (before ++ after)).Perm [y, c] := List.perm_middle.symm.trans h
  rcases List.mem_pair.mp (hmoved.mem_iff.mp List.mem_cons_self) with rfl | rfl
  · exact .inl ⟨rfl, List.perm_singleton.mp (List.perm_cons x |>.mp hmoved)⟩
  · have hswapped := hmoved.trans (List.Perm.swap x y [])
    exact .inr ⟨rfl, List.perm_singleton.mp (List.perm_cons x |>.mp hswapped)⟩

theorem SlotOk.exchange {s' : Slot} {t' : Talk} {x y : Item (Op cfg.slots)}
    (O : SlotOk i s t (before ++ x :: after)) (hfd : s'.fd = s.fd) (hgen : s'.gen = s.gen)
    (hops : s'.ops = s.ops) (hclosing : s'.closing = s.closing)
    (hdata : Data i s t x → Data i s' t' y)
    (hcancel : Cancel i s x → Cancel i s y ∧ s' = s ∧ t' = t) :
    SlotOk i s' t' (before ++ y :: after) := by
  have hkept : ∀ {c : Item (Op cfg.slots)}, Cancel i s c → Cancel i s' c := by
    intro c C
    cases C with
    | cancelling =>
      rw [← hgen, ← hfd]
      exact .cancelling
    | cancelled z =>
      rw [← hgen]
      exact .cancelled z
  cases O with
  | free _ _ _ hitems =>
    exact absurd hitems (List.append_ne_nil_of_right_ne_nil _ (List.cons_ne_nil x after))
  | serving d hsome hone hopen hitems D =>
    obtain ⟨rfl, rfl, rfl⟩ := append_cons_eq_singleton hitems
    exact .serving y (hfd ▸ hsome) (hops.trans hone) (hclosing.trans hopen) rfl (hdata D)
  | closingBoth d c hsome htwo hshut hperm D C =>
    rcases perm_pair_middle hperm with ⟨rfl, hrest⟩ | ⟨rfl, hrest⟩
    · refine .closingBoth y c (hfd ▸ hsome) (hops.trans htwo) (hclosing.trans hshut) ?_ (hdata D)
        (hkept C)
      exact List.perm_middle.trans (by rw [hrest])
    · obtain ⟨C', rfl, rfl⟩ := hcancel C
      refine .closingBoth d y hsome htwo hshut ?_ D C'
      refine List.perm_middle.trans ?_
      rw [hrest]
      exact List.Perm.swap d y []
  | closingData d hsome hone hshut hitems D =>
    obtain ⟨rfl, rfl, rfl⟩ := append_cons_eq_singleton hitems
    exact .closingData y (hfd ▸ hsome) (hops.trans hone) (hclosing.trans hshut) rfl (hdata D)
  | closingCancel c hsome hone hshut hitems C =>
    obtain ⟨rfl, rfl, rfl⟩ := append_cons_eq_singleton hitems
    obtain ⟨C', rfl, rfl⟩ := hcancel C
    exact .closingCancel y hsome hone hshut rfl C'

/-- The thread takes one of the slot's completions: an open slot is then without operation, and
one that closes is, or waits for its last. -/
theorem SlotOk.remove (O : SlotOk i s t (before ++ x :: after)) :
    (s.closing = false ∧ Data i s t x ∧ Bare cfg { s with ops := s.ops - 1 } (before ++ after)) ∨
    (s.closing = true ∧ Bare cfg { s with ops := s.ops - 1 } (before ++ after)) ∨
    (s.closing = true ∧ s.ops = 2 ∧ SlotOk i { s with ops := s.ops - 1 } t (before ++ after)) := by
  cases O with
  | free _ _ _ hitems =>
    exact absurd hitems (List.append_ne_nil_of_right_ne_nil _ (List.cons_ne_nil x after))
  | serving d hsome hone hopen hitems D =>
    obtain ⟨rfl, rfl, rfl⟩ := append_cons_eq_singleton hitems
    exact .inl ⟨hopen, D, hsome, by rw [hone], rfl⟩
  | closingBoth d c hsome htwo hshut hperm D C =>
    have hone : s.ops - 1 = 1 := by omega
    rcases perm_pair_middle hperm with ⟨rfl, hrest⟩ | ⟨rfl, hrest⟩
    · refine .inr (.inr ⟨hshut, htwo, .closingCancel c hsome hone hshut hrest ?_⟩)
      cases C with
      | cancelling => exact .cancelling
      | cancelled z => exact .cancelled z
    · exact .inr (.inr ⟨hshut, htwo, .closingData d hsome hone hshut hrest (D.of_slot ..)⟩)
  | closingData d hsome hone hshut hitems D | closingCancel c hsome hone hshut hitems C =>
    obtain ⟨rfl, rfl, rfl⟩ := append_cons_eq_singleton hitems
    exact .inr (.inl ⟨hshut, hsome, by rw [hone], rfl⟩)

/-- What a thread's ring has pending beside its slots' operations: what it tells the main thread,
and what the main thread sent it. -/
inductive Other (k : ℕ) : Item (Op cfg.slots) → Prop where
  | telling (i : Fin cfg.slots) :
    Other k (.flying (Kind.told.tok i 0) (.message (Kind.freed.tok k 0) 0))
  | told (i : Fin cfg.slots) (z : ℤ) : Other k (.done ⟨Kind.told.tok i 0, z⟩)
  | handed (fd : ℕ) : Other k (.done ⟨Kind.handed.tok 0 0, fd⟩)
  | stop : Other k (.done ⟨Kind.stop.tok 0 0, 0⟩)

theorem Other.not_isOf {k : ℕ} (O : Other k x) (i : ℕ) : EchoUring.isOf i x.token = false := by
  have hzero : 0 < 2 ^ 24 := Nat.two_pow_pos 24
  cases O with
  | telling j | told j z => exact isOf_tok (slot_lt j) i .told 0
  | handed fd => exact isOf_tok hzero i .handed 0
  | stop => exact isOf_tok hzero i .stop 0

def Slot.holds (s : Slot) : ℕ := if s.fd.isSome then 1 else 0

namespace Worker

/-- What holds of a thread's slots, those apart that an operation is about. -/
structure But (k : ℕ) (talks : Talks) (w : Worker cfg) (P : Fin cfg.slots → Prop) : Prop where
  sized : ∀ j, Sized cfg (w.slots j)
  slot : ∀ j, P j → SlotOk j (w.slots j) ((w.slots j).talk talks) (slotItems j w.pending)
  known : ∀ x ∈ w.pending, (∃ j : Fin cfg.slots, isOf j x.token = true) ∨ Other k x
  held : w.held = ∑ j, (w.slots j).holds

def Ok (k : ℕ) (talks : Talks) (w : Worker cfg) : Prop := w.But k talks fun _ => True

variable {k now : ℕ} {w : Worker cfg} {P : Fin cfg.slots → Prop} {x : Item (Op cfg.slots)}
  {kind : Kind} {n : ℕ} {token : ℕ} {j : ℕ} {w' : Worker cfg} {talks' : Talks}

private theorem Ok.but (h : w.Ok k talks) (i : Fin cfg.slots) : w.But k talks (· ≠ i) :=
  ⟨h.sized, fun j _ => h.slot j trivial, h.known, h.held⟩

theorem But.ok (h : w.But k talks (· ≠ i))
    (hi : SlotOk i (w.slots i) ((w.slots i).talk talks) (slotItems i w.pending)) :
    w.Ok k talks := by
  refine ⟨h.sized, ?_, h.known, h.held⟩
  intro j _
  by_cases hj : j = i
  · rw [hj]
    exact hi
  · exact h.slot j hj

private theorem holds_update (w : Worker cfg) (i : Fin cfg.slots) (s : Slot) :
    ∑ j, (Function.update w.slots i s j).holds + (w.slots i).holds =
      ∑ j, (w.slots j).holds + s.holds :=
  Runs.sum_update Slot.holds w.slots i s

@[simp] theorem setSlot_slots_self (w : Worker cfg) (i : Fin cfg.slots) (s : Slot) :
    (w.setSlot i s).slots i = s := Function.update_self ..

theorem setSlot_slots_of_ne (w : Worker cfg) {i j : Fin cfg.slots} (hj : j ≠ i) (s : Slot) :
    (w.setSlot i s).slots j = w.slots j := Function.update_of_ne hj ..

theorem But.count (h : w.But k talks P) (f : Counts → Counts) :
    (w.count f).But k talks P := ⟨h.sized, h.slot, h.known, h.held⟩

theorem But.setSlot (h : w.But k talks (· ≠ i)) (hsized : Sized cfg s)
    (hfd : s.fd.isSome = (w.slots i).fd.isSome) : (w.setSlot i s).But k talks (· ≠ i) where
  sized := by
    intro j
    by_cases hj : j = i
    · rw [hj, setSlot_slots_self]
      exact hsized
    · rw [setSlot_slots_of_ne w hj]
      exact h.sized j
  slot := by
    intro j hj
    rw [setSlot_slots_of_ne w hj]
    exact h.slot j hj
  known := h.known
  held := by
    have hsum := holds_update w i s
    have hholds : s.holds = (w.slots i).holds := by rw [Slot.holds, Slot.holds, hfd]
    have hheld := h.held
    show w.held = ∑ j, (Function.update w.slots i s j).holds
    omega

private theorem slotItems_append_of (hx : isOf i x.token = true)
    (pending : List (Item (Op cfg.slots))) :
    slotItems i (pending ++ [x]) = slotItems i pending ++ [x] := by
  rw [slotItems, List.filter_append, List.filter_singleton, hx]
  rfl

theorem slotItems_append_not (hx : isOf i x.token = false) (pending : List (Item (Op cfg.slots))) :
    slotItems i (pending ++ [x]) = slotItems i pending := by
  rw [slotItems, List.filter_append, List.filter_singleton, hx]
  exact List.append_nil _

theorem But.submit (h : w.But k talks (· ≠ i)) (kind : Kind) (hkind : kind.ofConn = true) (gen : ℕ)
    (op : Op cfg.slots) : (w.submit (kind.tok i gen) op).But k talks (· ≠ i) where
  sized := h.sized
  slot := by
    intro j hj
    have hnot : isOf j (kind.tok i gen) = false := by
      rw [isOf_tok (slot_lt i), beq_eq_false_iff_ne.mpr, Bool.and_false]
      exact fun heq => hj (Fin.ext heq.symm)
    show SlotOk j (w.slots j) _ (slotItems j (w.pending ++ [.flying (kind.tok i gen) op]))
    rw [slotItems_append_not hnot]
    exact h.slot j hj
  known := by
    refine List.forall_mem_append.mpr ⟨h.known, List.forall_mem_singleton.mpr (.inl ⟨i, ?_⟩)⟩
    show isOf i (kind.tok i gen) = true
    rw [isOf_tok (slot_lt i), hkind, beq_self_eq_true, Bool.and_true]
  held := h.held

private theorem slotItems_submit (hkind : kind.ofConn = true) (w : Worker cfg) (i : Fin cfg.slots)
    (gen : ℕ)
    (op : Op cfg.slots) :
    slotItems i (w.submit (kind.tok i gen) op).pending =
      slotItems i w.pending ++ [.flying (kind.tok i gen) op] := by
  refine slotItems_append_of ?_ _
  show isOf i (kind.tok i gen) = true
  rw [isOf_tok (slot_lt i), hkind, beq_self_eq_true, Bool.and_true]

theorem But.armRecv (h : w.But k talks (· ≠ i)) (hbare : Bare cfg (w.slots i) (slotItems i w.pending))
    (hopen : (w.slots i).closing = false) (hlength : (w.slots i).length = 0)
    (htalk : ((w.slots i).talk talks).received = ((w.slots i).talk talks).delivered) :
    (w.armRecv i).Ok k talks := by
  have hsubmitted := h.submit .recv rfl (w.slots i).gen
    (.recv (w.slots i).fd i cfg.capacity)
  have hsized : Sized cfg { w.slots i with ops := (w.slots i).ops + 1 } :=
    (h.sized i).of_eq rfl rfl rfl
  refine (hsubmitted.setSlot hsized rfl).ok ?_
  rw [setSlot_slots_self]
  refine .serving _ hbare.fd (by rw [hbare.ops]) hopen ?_ (.receiving hlength htalk)
  show slotItems i (w.submit (Kind.recv.tok i _) _).pending = _
  rw [slotItems_submit rfl, hbare.items]
  rfl

theorem But.armSend (h : w.But k talks (· ≠ i)) (hbare : Bare cfg (w.slots i) (slotItems i w.pending))
    (hopen : (w.slots i).closing = false) (hsent : (w.slots i).sent < (w.slots i).length)
    (hlength : (w.slots i).length ≤ cfg.capacity)
    (htalk : ((w.slots i).talk talks).received = ((w.slots i).talk talks).delivered ++
      ((w.slots i).out.take (w.slots i).length).drop (w.slots i).sent) :
    (w.armSend i).Ok k talks := by
  have hsubmitted := h.submit .send rfl (w.slots i).gen
    (.send (w.slots i).fd i (w.slots i).sent
      (min ((w.slots i).length - (w.slots i).sent) cfg.writeChunk))
  have hsized : Sized cfg { w.slots i with ops := (w.slots i).ops + 1 } :=
    (h.sized i).of_eq rfl rfl rfl
  refine (hsubmitted.setSlot hsized rfl).ok ?_
  rw [setSlot_slots_self]
  refine .serving _ hbare.fd (by rw [hbare.ops]) hopen ?_ (.sending hsent hlength htalk)
  show slotItems i (w.submit (Kind.send.tok i _) _).pending = _
  rw [slotItems_submit rfl, hbare.items]
  rfl

private theorem sum_holds_le (w : Worker cfg) : ∑ j, (w.slots j).holds ≤ cfg.slots := by
  have hle : ∑ j, (w.slots j).holds ≤ ∑ _j : Fin cfg.slots, 1 := by
    refine Finset.sum_le_sum ?_
    intro j _
    rw [Slot.holds]
    split <;> omega
  rw [Finset.sum_const, Finset.card_univ, Fintype.card_fin, smul_eq_mul, Nat.mul_one] at hle
  exact hle

theorem decr_succ (hn : n < 2 ^ 32) : decr (n + 1) = n := by
  rw [decr]
  omega

theorem But.finish (h : w.But k talks (· ≠ i)) (hbare : Bare cfg (w.slots i) (slotItems i w.pending)) :
    (w.finish k i).Ok k talks := by
  have hslots := cfg.slots_le
  have hle := sum_holds_le w
  have hsum := holds_update w i
    { w.slots i with fd := none, closing := false, length := 0, sent := 0 }
  have hheld := h.held
  have hnone : ({ w.slots i with
      fd := none, closing := false, length := 0, sent := 0 } : Slot).holds = 0 := rfl
  have hsome : (w.slots i).holds = 1 := by rw [Slot.holds, if_pos hbare.fd]
  have hother : ∀ j : Fin cfg.slots,
      isOf j (Item.flying (Kind.told.tok i 0) (Op.message (Kind.freed.tok k 0) 0) :
        Item (Op cfg.slots)).token = false := fun j => (Other.telling (k := k) i).not_isOf j
  refine ⟨?_, ?_, ?_, ?_⟩
  · exact (Function.forall_update_iff w.slots fun _ => Sized cfg).mpr
      ⟨(h.sized i).of_eq rfl rfl rfl, fun j _ => h.sized j⟩
  · intro j _
    show SlotOk j (Function.update w.slots i _ j) ((Function.update w.slots i _ j).talk talks)
      (slotItems j (w.pending ++ [_]))
    rw [slotItems_append_not (hother j)]
    by_cases hj : j = i
    · rw [hj, Function.update_self]
      exact .free rfl hbare.ops rfl hbare.items
    · rw [Function.update_of_ne hj]
      exact h.slot j hj
  · exact List.forall_mem_append.mpr
      ⟨h.known, List.forall_mem_singleton.mpr (.inr (.telling i))⟩
  · show decr w.held = ∑ j, (Function.update w.slots i _ j).holds
    obtain ⟨n, hn⟩ : ∃ n, w.held = n + 1 := ⟨w.held - 1, by omega⟩
    rw [hn, decr_succ (by omega)]
    omega

theorem But.endConn (h : w.But k talks (· ≠ i)) (hbare : Bare cfg (w.slots i) (slotItems i w.pending))
    (hopen : (w.slots i).closing = false) : (w.endConn k i).Ok k talks := by
  have hsized : Sized cfg { w.slots i with closing := true } := (h.sized i).of_eq rfl rfl rfl
  rw [Worker.endConn, hopen, if_neg Bool.false_ne_true, if_pos hbare.ops]
  refine (h.setSlot hsized rfl).finish ?_
  rw [setSlot_slots_self]
  exact ⟨hbare.fd, hbare.ops, hbare.items⟩

theorem Ok.endConn (h : w.Ok k talks) (hfd : (w.slots i).fd.isSome = true) :
    (w.endConn k i).Ok k talks := by
  rw [Worker.endConn]
  split
  · exact h
  · rename_i hclosing
    rcases h.slot i trivial with
      ⟨hnone, -⟩ | ⟨x, hsome, hone, hopen, hitems, D⟩ | ⟨x, c, -, -, hshut, -⟩ |
      ⟨x, -, -, hshut, -⟩ | ⟨c, -, -, hshut, -⟩
    · rw [hnone] at hfd
      cases hfd
    · have hsized : Sized cfg { w.slots i with
          closing := true, ops := (w.slots i).ops + 1 } := (h.sized i).of_eq rfl rfl rfl
      have hsubmitted := (h.but i).submit .cancel rfl (w.slots i).gen (.cancelFd (w.slots i).fd)
      rw [if_neg (by omega)]
      refine (hsubmitted.setSlot hsized rfl).ok ?_
      rw [setSlot_slots_self]
      refine .closingBoth x (.flying (Kind.cancel.tok i (w.slots i).gen)
        (.cancelFd (w.slots i).fd)) hsome (by rw [hone]) rfl ?_ (D.of_slot ..) .cancelling
      show (slotItems i (w.submit (Kind.cancel.tok i _) _).pending).Perm _
      rw [slotItems_submit rfl, hitems]
      rfl
    · exact absurd hshut hclosing
    · exact absurd hshut hclosing
    · exact absurd hshut hclosing

theorem But.heard (h : w.But k talks (· ≠ i)) (hbare : Bare cfg (w.slots i) (slotItems i w.pending))
    (hopen : (w.slots i).closing = false) (hpos : 0 < n) (hn : n ≤ cfg.capacity)
    (htalk : ((w.slots i).talk talks).received =
      ((w.slots i).talk talks).delivered ++ (w.slots i).input.take n) :
    ∃ w', w.heard now i n = .ok w' ∧ w'.Ok k talks := by
  have hin := (h.sized i).input
  have hout := (h.sized i).out
  have hecho := dnEcho_eq cfg.capacity_le hn (hn.trans_eq hin.symm)
    (hn.trans_eq hout.symm)
  rw [Worker.heard, hecho]
  refine ⟨_, if_neg (not_not.mpr rfl), ?_⟩
  have htaken : ((w.slots i).input.take n).length = n := by
    rw [List.length_take]
    omega
  have hsized : Sized cfg { w.slots i with
      out := (w.slots i).input.take n ++ (w.slots i).out.drop n
      length := n, sent := 0, active := now } := by
    refine ⟨hin, ?_, (h.sized i).gen⟩
    show ((w.slots i).input.take n ++ (w.slots i).out.drop n).length = _
    rw [List.length_append, htaken, List.length_drop]
    omega
  refine ((h.count _).setSlot hsized rfl).armSend ?_ ?_ ?_ ?_ ?_ <;> rw [setSlot_slots_self]
  · exact ⟨hbare.fd, hbare.ops, hbare.items⟩
  · exact hopen
  · exact hpos
  · exact hn
  · show _ = _ ++ List.drop 0 (List.take n _)
    rw [List.drop_zero, List.take_append_of_le_length (by omega), List.take_take, Nat.min_self]
    exact htalk

theorem But.said (h : w.But k talks (· ≠ i)) (hbare : Bare cfg (w.slots i) (slotItems i w.pending))
    (hopen : (w.slots i).closing = false)
    (hn : n ≤ (w.slots i).length - (w.slots i).sent)
    (hlength : (w.slots i).length ≤ cfg.capacity)
    (htalk : ((w.slots i).talk talks).received = ((w.slots i).talk talks).delivered ++
      ((w.slots i).out.take (w.slots i).length).drop ((w.slots i).sent + n)) :
    ∃ w', w.said now i n = .ok w' ∧ w'.Ok k talks := by
  rw [Worker.said, if_neg (by omega)]
  refine ⟨_, rfl, ?_⟩
  split
  · rename_i hless
    have hsized : Sized cfg { w.slots i with
        sent := (w.slots i).sent + n, active := now } := (h.sized i).of_eq rfl rfl rfl
    refine ((h.count _).setSlot hsized rfl).armSend ?_ ?_ ?_ ?_ ?_ <;> rw [setSlot_slots_self]
    · exact ⟨hbare.fd, hbare.ops, hbare.items⟩
    · exact hopen
    · exact hless
    · exact hlength
    · exact htalk
  · have hsized : Sized cfg { w.slots i with
        length := 0, sent := 0, active := now } := (h.sized i).of_eq rfl rfl rfl
    refine ((h.count _).setSlot hsized rfl).armRecv ?_ ?_ ?_ ?_ <;> rw [setSlot_slots_self]
    · exact ⟨hbare.fd, hbare.ops, hbare.items⟩
    · exact hopen
    · show ((w.slots i).talk talks).received = ((w.slots i).talk talks).delivered
      rw [htalk, List.drop_of_length_le, List.append_nil]
      rw [List.length_take]
      omega

theorem isOf_iff {i token : ℕ} : isOf i token = true ↔
    ∃ kind, Kind.ofCode (tokenKind token) = some kind ∧ kind.ofConn = true ∧
      tokenSlot token = i := by
  rw [isOf]
  cases Kind.ofCode (tokenKind token) with
  | none => simp only [Bool.false_eq_true, reduceCtorEq, false_and, exists_false]
  | some kind => simp only [Bool.and_eq_true, beq_iff_eq, Option.some.injEq, exists_eq_left']

private theorem isOf_unique {i j : Fin cfg.slots} (hi : isOf i token = true)
    (hj : isOf j token = true) :
    j = i := by
  obtain ⟨-, -, -, hslot⟩ := isOf_iff.mp hi
  obtain ⟨-, -, -, hslot'⟩ := isOf_iff.mp hj
  exact Fin.ext (hslot'.symm.trans hslot)

theorem Ok.erase (h : w.Ok k talks) (hx : w.pending[j]? = some x) (hi : isOf i x.token = true) :
    ({ w with pending := w.pending.eraseIdx j } : Worker cfg).But k talks (· ≠ i) ∧
      ∃ before after, slotItems i w.pending = before ++ x :: after ∧
        slotItems i (w.pending.eraseIdx j) = before ++ after := by
  obtain ⟨before, after, hsplit, herase, -⟩ := Lists.exists_around hx
  refine ⟨⟨h.sized, ?_, ?_, h.held⟩, slotItems i before, slotItems i after, ?_, ?_⟩
  · intro m hm
    have hnot : isOf m x.token = false := by
      rw [← Bool.not_eq_true]
      exact fun hof => hm (isOf_unique hi hof)
    have hslot := h.slot m trivial
    rw [hsplit] at hslot
    show SlotOk m (w.slots m) _ (slotItems m (w.pending.eraseIdx j))
    rw [herase]
    simpa only [slotItems, List.filter_append, List.filter_cons, hnot, Bool.false_eq_true,
      if_false] using hslot
  · intro y hy
    exact h.known y (List.eraseIdx_subset hy)
  · rw [hsplit, slotItems, List.filter_append, List.filter_cons, if_pos hi]
    rfl
  · rw [herase, slotItems, List.filter_append]
    rfl

private theorem Ok.erase_other (h : w.Ok k talks) (hx : w.pending[j]? = some x)
    (hother : Other k x) :
    ({ w with pending := w.pending.eraseIdx j } : Worker cfg).Ok k talks := by
  obtain ⟨before, after, hsplit, herase, -⟩ := Lists.exists_around hx
  refine ⟨h.sized, ?_, ?_, h.held⟩
  · intro m _
    have hslot := h.slot m trivial
    rw [hsplit] at hslot
    show SlotOk m (w.slots m) _ (slotItems m (w.pending.eraseIdx j))
    rw [herase]
    simpa only [slotItems, List.filter_append, List.filter_cons, hother.not_isOf,
      Bool.false_eq_true, if_false] using hslot
  · intro y hy
    exact h.known y (List.eraseIdx_subset hy)

theorem Ok.reaped (h : w.Ok k talks) {c : Cqe} (hc : w.pending[j]? = some (.done c))
    (hi : isOf i c.token = true) (hkind : Kind.ofCode (tokenKind c.token) = some kind) :
    ∃ w', (({ w with pending := w.pending.eraseIdx j } : Worker cfg).reap i c).reaped k now i kind
      c.res = .ok w' ∧ w'.Ok k talks := by
  obtain ⟨hbut, before, after, hitems, herased⟩ := h.erase hc hi
  have hslot := h.slot i trivial
  rw [hitems] at hslot
  have hsized : Sized cfg { w.slots i with ops := (w.slots i).ops - 1 } :=
    (h.sized i).of_eq rfl rfl rfl
  have hreap : (({ w with pending := w.pending.eraseIdx j } : Worker cfg).reap i c).But k talks
      (· ≠ i) := (hbut.count _).setSlot hsized rfl
  have hself : (({ w with pending := w.pending.eraseIdx j } : Worker cfg).reap i c).slots i =
      { w.slots i with ops := (w.slots i).ops - 1 } := setSlot_slots_self ..
  have hleft : slotItems i (({ w with pending := w.pending.eraseIdx j } : Worker cfg).reap i
      c).pending = before ++ after := herased
  rw [Worker.reaped, hself]
  rcases hslot.remove with ⟨hopen, D, hbare⟩ | ⟨hshut, hbare⟩ | ⟨hshut, htwo, hok⟩
  · rw [← hself, ← hleft] at hbare
    have hnotcancel : kind ≠ .cancel := by
      rintro rfl
      cases D <;> simp only [ofCode_tok, reduceCtorEq, Option.some.injEq] at hkind
    have hshutNot : ¬ ((w.slots i).closing = true ∨ kind = .cancel) := by
      rw [hopen]
      exact fun hor => hor.elim Bool.false_ne_true hnotcancel
    have hopen' : ((({ w with pending := w.pending.eraseIdx j } : Worker cfg).reap i c).slots
        i).closing = false := by
      rw [hself]
      exact hopen
    rw [if_neg hshutNot]
    cases D with
    | received n hpos hn htalk =>
      obtain rfl : Kind.recv = kind := by simpa only [ofCode_tok, Option.some.injEq] using hkind
      rw [if_neg (by show ¬ (n : ℤ) ≤ 0; omega), if_pos rfl]
      refine hreap.heard hbare hopen' hpos hn ?_
      rw [hself]
      exact htalk
    | receivedNone z hz htalk =>
      rw [if_pos hz]
      exact ⟨_, rfl, hreap.endConn hbare hopen'⟩
    | sentSome n hpos hn hlength htalk =>
      obtain rfl : Kind.send = kind := by simpa only [ofCode_tok, Option.some.injEq] using hkind
      rw [if_neg (by show ¬ (n : ℤ) ≤ 0; omega), if_neg (by decide)]
      refine hreap.said hbare hopen' ?_ ?_ ?_ <;> rw [hself]
      · exact hn
      · exact hlength
      · exact htalk
    | sentNone z hz hlength htalk =>
      rw [if_pos hz]
      exact ⟨_, rfl, hreap.endConn hbare hopen'⟩
  · rw [if_pos (.inl hshut), if_pos ⟨hshut, hbare.ops⟩]
    rw [← hself, ← hleft] at hbare
    exact ⟨_, rfl, hreap.finish hbare⟩
  · have hnot : ¬ ((w.slots i).closing = true ∧ (w.slots i).ops - 1 = 0) := by
      rintro ⟨-, hzero⟩
      omega
    rw [if_pos (.inl hshut), if_neg hnot]
    refine ⟨_, rfl, hreap.ok ?_⟩
    rw [hself, hleft]
    exact hok

theorem Ok.slotCompleted (h : w.Ok k talks) {c : Cqe} (hc : w.pending[j]? = some (.done c))
    (hi : isOf i c.token = true) (hkind : Kind.ofCode (tokenKind c.token) = some kind) :
    ∃ w', ({ w with pending := w.pending.eraseIdx j } : Worker cfg).slotCompleted k now kind c =
      .ok w' ∧ w'.Ok k talks := by
  obtain ⟨-, -, -, hslot⟩ := isOf_iff.mp hi
  have hlt : tokenSlot c.token < cfg.slots := hslot ▸ i.isLt
  have hself : (⟨tokenSlot c.token, hlt⟩ : Fin cfg.slots) = i := Fin.ext hslot
  have hmem : Item.done c ∈ slotItems i w.pending :=
    List.mem_filter.mpr ⟨List.mem_of_getElem? hc, hi⟩
  have hok := h.slot i trivial
  have hgen : tokenGen c.token = (w.slots i).gen := by
    rcases hok.mem hmem with D | C
    · cases D <;> exact tokenGen_tok (h.sized i).gen ..
    · cases C
      exact tokenGen_tok (h.sized i).gen ..
  have hlive : (w.slots i).fd.isSome = true ∧ (w.slots i).ops ≠ 0 := by
    rcases hok with ⟨-, -, -, hitems⟩ | ⟨x, hsome, hops, -⟩ | ⟨x, c, hsome, hops, -⟩ |
      ⟨x, hsome, hops, -⟩ | ⟨c, hsome, hops, -⟩
    · rw [hitems] at hmem
      cases hmem
    all_goals exact ⟨hsome, by omega⟩
  have hgood : ¬ ((w.slots i).fd.isNone = true ∨ tokenGen c.token ≠ (w.slots i).gen ∨
      (w.slots i).ops = 0) := by
    rw [← Option.not_isSome, hlive.1]
    rintro (hnot | hne | hzero)
    · cases hnot
    · exact hne hgen
    · exact hlive.2 hzero
  rw [Worker.slotCompleted, dif_pos hlt, hself, if_neg hgood]
  exact h.reaped hc hi hkind

/-- The slot a connection is given, and the thread that gave it. -/
def opened (now : ℕ) (w : Worker cfg) (i : Fin cfg.slots) (fd : ℕ) : Worker cfg :=
  { w with held := w.held + 1 }.setSlot i
    { w.slots i with
      fd := some fd, gen := ((w.slots i).gen + 1) % 2 ^ 32
      length := 0, sent := 0, active := now }

theorem take_cases {fd : ℕ} (h : w.take k now fd = .ok w') :
    ∃ i, (w.slots i).fd = none ∧ (w.slots i).ops = 0 ∧
      w' = if w.stopping then (w.opened now i fd).endConn k i else (w.opened now i fd).armRecv i := by
  rw [Worker.take] at h
  split at h
  · cases h
  · rename_i i hfound
    have hempty := List.find?_some hfound
    rw [isFree, Bool.and_eq_true, Option.isNone_iff_eq_none, beq_iff_eq] at hempty
    exact ⟨i, hempty.1, hempty.2, (Except.ok.inj h).symm⟩

theorem Ok.opened (h : w.Ok k talks) (hnone : (w.slots i).fd = none) (now fd : ℕ) :
    (w.opened now i fd).But k talks (· ≠ i) := by
  refine ⟨?_, ?_, h.known, ?_⟩
  · intro j
    by_cases hj : j = i
    · rw [hj, Worker.opened, setSlot_slots_self]
      exact ⟨(h.sized i).input, (h.sized i).out, Nat.mod_lt _ (Nat.two_pow_pos 32)⟩
    · rw [Worker.opened, setSlot_slots_of_ne _ hj]
      exact h.sized j
  · intro j hj
    rw [Worker.opened, setSlot_slots_of_ne _ hj]
    exact h.slot j trivial
  · have hsum := holds_update w i ((w.opened now i fd).slots i)
    have hold : (w.slots i).holds = 0 := by rw [Slot.holds, hnone]; rfl
    rw [Worker.opened, setSlot_slots_self] at hsum
    have hheld := h.held
    show w.held + 1 = ∑ j, (Function.update w.slots i _ j).holds
    rw [hold, ← hheld] at hsum
    exact hsum.symm

theorem Ok.free_slot (h : w.Ok k talks) (hnone : (w.slots i).fd = none) :
    (w.slots i).ops = 0 ∧ (w.slots i).closing = false ∧ slotItems i w.pending = [] := by
  rcases h.slot i trivial with ⟨-, hops, hopen, hitems⟩ | ⟨x, hsome, -⟩ | ⟨x, c, hsome, -⟩ |
    ⟨x, hsome, -⟩ | ⟨c, hsome, -⟩
  · exact ⟨hops, hopen, hitems⟩
  all_goals
    rw [hnone] at hsome
    cases hsome

theorem Ok.take (h : w.Ok k talks) {fd : ℕ} (hnew : (talks fd).head? = some .new)
    (hfree : ∃ j, isFree (w.slots j) = true) :
    ∃ w', w.take k now fd = .ok w' ∧ w'.Ok k talks := by
  have hfound : ((List.finRange cfg.slots).find? fun j => isFree (w.slots j)).isSome := by
    obtain ⟨j, hj⟩ := hfree
    exact List.find?_isSome.mpr ⟨j, List.mem_finRange j, hj⟩
  obtain ⟨j, hj⟩ := Option.isSome_iff_exists.mp hfound
  obtain ⟨w', hw'⟩ : ∃ w', w.take k now fd = .ok w' := by
    rw [Worker.take, hj]
    exact ⟨_, rfl⟩
  refine ⟨w', hw', ?_⟩
  obtain ⟨i, hnone, hops, rfl⟩ := take_cases hw'
  obtain ⟨-, hopen, hitems⟩ := h.free_slot hnone
  have hbut := h.opened hnone now fd
  have hself : (w.opened now i fd).slots i = _ := setSlot_slots_self ..
  have hbare : Bare cfg ((w.opened now i fd).slots i) (slotItems i w.pending) := by
    rw [hself]
    exact ⟨rfl, hops, hitems⟩
  split
  · exact hbut.endConn hbare (by rw [hself]; exact hopen)
  · refine hbut.armRecv hbare ?_ ?_ ?_ <;> rw [hself]
    · exact hopen
    · rw [Slot.talk, Option.bind_some, hnew]
      rfl

theorem foldl_keeps {α β : Type} {P : β → Prop} {f : β → α → β}
    (keep : ∀ b a, P b → P (f b a)) (l : List α) {b : β} (hb : P b) : P (l.foldl f b) := by
  induction l generalizing b with
  | nil => exact hb
  | cons a l ih => exact ih (keep b a hb)

theorem Ok.stopped (h : w.Ok k talks) : (w.stopped k).Ok k talks := by
  refine foldl_keeps ?_ _ ⟨h.sized, h.slot, h.known, h.held⟩
  intro w i hw
  split
  · rename_i hsome
    exact hw.endConn hsome
  · exact hw

theorem Ok.expire (h : w.Ok k talks) : (w.expire k now).Ok k talks := by
  refine foldl_keeps ?_ _ h
  intro w i hw
  rw [Worker.expireSlot]
  split
  · exact hw
  · rename_i hnot
    split
    · have hcounted : (w.count (.expire ((w.slots i).length ≠ 0))).Ok k talks := hw.count _
      refine hcounted.endConn ?_
      show (w.slots i).fd.isSome = true
      rw [← Option.not_isNone, Bool.eq_false_of_not_eq_true fun hnone => hnot (.inl hnone)]
      rfl
    · exact hw

theorem Ok.completed (h : w.Ok k talks) (now : ℕ) {c : Cqe} (hc : w.pending[j]? = some (.done c))
    (hfree : ∀ fd : ℕ, c = ⟨Kind.handed.tok 0 0, fd⟩ →
      (∃ j, isFree (w.slots j) = true) ∧ (talks fd).head? = some .new) :
    ({ w with pending := w.pending.eraseIdx j } : Worker cfg).completed k now c =
        .error .harness ∨
      ∃ w', ({ w with pending := w.pending.eraseIdx j } : Worker cfg).completed k now c =
        .ok w' ∧ w'.Ok k talks := by
  rcases h.known _ (List.mem_of_getElem? hc) with ⟨i, hi⟩ | hother
  · obtain ⟨kind, hkind, hconn, -⟩ := isOf_iff.mp hi
    change Kind.ofCode (tokenKind c.token) = some kind at hkind
    have hdone : ∃ w', ({ w with pending := w.pending.eraseIdx j } : Worker cfg).slotCompleted k
        now kind c = .ok w' ∧ w'.Ok k talks := h.slotCompleted hc hi hkind
    rw [Worker.completed, hkind]
    cases kind with
    | recv | send | cancel => exact .inr hdone
    | accept | signal | told | handed | freed | stop => cases hconn
  · have herased := h.erase_other hc hother
    rw [Worker.completed]
    cases hother with
    | told i z =>
      simp only [ofCode_tok]
      split
      · exact .inl rfl
      · exact .inr ⟨_, rfl, herased⟩
    | handed fd =>
      simp only [ofCode_tok]
      obtain ⟨hslot, hnew⟩ := hfree fd rfl
      exact .inr (herased.take hnew hslot)
    | stop =>
      simp only [ofCode_tok]
      exact .inr ⟨_, rfl, herased.stopped⟩

theorem Ok.exchange (h : w.Ok k talks) {x y : Item (Op cfg.slots)} {s' : Slot}
    (hx : w.pending[j]? = some x) (hi : isOf i x.token = true)
    (htoken : y.token = x.token) (hsized : Sized cfg s') (hfd : s'.fd = (w.slots i).fd)
    (hgen : s'.gen = (w.slots i).gen) (hops : s'.ops = (w.slots i).ops)
    (hclosing : s'.closing = (w.slots i).closing)
    (hothers : ∀ m ≠ i, (w.slots m).talk talks' = (w.slots m).talk talks)
    (hdata : Data i (w.slots i) ((w.slots i).talk talks) x → Data i s' (s'.talk talks') y)
    (hcancel : Cancel i (w.slots i) x → Cancel i (w.slots i) y ∧ s' = w.slots i ∧
      s'.talk talks' = (w.slots i).talk talks) :
    ({ w.setSlot i s' with pending := w.pending.set j y } : Worker cfg).Ok k talks' := by
  obtain ⟨before, after, hsplit, -, hset⟩ := Lists.exists_around hx
  have hset := hset y
  have hslots := (h.but i).setSlot hsized (by rw [hfd])
  refine But.ok (i := i) ⟨hslots.sized, ?_, ?_, hslots.held⟩ ?_
  · intro m hm
    have hnot : isOf m x.token = false := by
      rw [← Bool.not_eq_true]
      exact fun hof => hm (isOf_unique hi hof)
    have hslot := h.slot m trivial
    rw [hsplit] at hslot
    show SlotOk m ((w.setSlot i s').slots m) (((w.setSlot i s').slots m).talk talks')
      (slotItems m (w.pending.set j y))
    rw [hset, setSlot_slots_of_ne w hm, hothers m hm]
    simpa only [slotItems, List.filter_append, List.filter_cons, htoken, hnot,
      Bool.false_eq_true, if_false] using hslot
  · intro z hz
    rcases List.mem_or_eq_of_mem_set hz with hold | rfl
    · exact h.known z hold
    · exact .inl ⟨i, htoken ▸ hi⟩
  · have hslot := h.slot i trivial
    have hy : isOf i y.token = true := htoken ▸ hi
    have hitems : slotItems i w.pending = slotItems i before ++ x :: slotItems i after := by
      rw [hsplit, slotItems, List.filter_append, List.filter_cons, if_pos hi]
      rfl
    have hitems' : slotItems i (w.pending.set j y) =
        slotItems i before ++ y :: slotItems i after := by
      rw [hset, slotItems, List.filter_append, List.filter_cons, if_pos hy]
      rfl
    rw [hitems] at hslot
    show SlotOk i ((w.setSlot i s').slots i) (((w.setSlot i s').slots i).talk talks')
      (slotItems i (w.pending.set j y))
    rw [setSlot_slots_self, hitems']
    exact hslot.exchange hfd hgen hops hclosing hdata hcancel

/-- What goes over a socket that no slot of the thread has is nothing to it. -/
theorem But.of_talks (h : w.But k talks P)
    (hsame : ∀ j, (w.slots j).talk talks' = (w.slots j).talk talks) : w.But k talks' P :=
  ⟨h.sized, fun j hj => (hsame j).symm ▸ h.slot j hj, h.known, h.held⟩

theorem setSlot_self (w : Worker cfg) (i : Fin cfg.slots) : w.setSlot i (w.slots i) = w := by
  rw [Worker.setSlot, Function.update_eq_self]

private theorem Data.execute_recv (hsized : Sized cfg s) {fd : Option ℕ} {b : Fin cfg.slots}
    {len : ℕ}
    (D : Data i s t (.flying token (.recv fd b len))) {data input : List UInt8} (hdata : data ≠ [])
    (hlen : data.length ≤ len) (hstore : store s.input 0 data = some input) :
    Data i { s with input } (t.hear data) (.done ⟨token, data.length⟩) ∧
      Sized cfg { s with input } := by
  cases D with
  | receiving hlength htalk =>
    have hfits : data.length ≤ s.input.length := by
      rw [hsized.input]
      exact hlen
    have hstored := store_behind [] s.input data hfits
    rw [List.nil_append, List.nil_append, List.length_nil, hstore] at hstored
    obtain rfl := Option.some.inj hstored
    refine ⟨.received data.length (List.length_pos_iff.mpr hdata) hlen ?_, ?_, hsized.out,
      hsized.gen⟩
    · show t.received ++ data = t.delivered ++ (data ++ _).take data.length
      rw [htalk, List.take_left]
    · show (data ++ s.input.drop data.length).length = _
      rw [List.length_append, List.length_drop, ← hsized.input]
      omega

private theorem Data.execute_send {fd : Option ℕ} {b : Fin cfg.slots} {off len : ℕ}
    (D : Data i s t (.flying token (.send fd b off len))) {data : List UInt8} (hpos : 0 < n)
    (hn : n ≤ len) (hload : load s.out off n = some data) :
    Data i s (t.say data) (.done ⟨token, n⟩) := by
  cases D with
  | sending hsent hlength htalk =>
    have hle : n ≤ s.length - s.sent := hn.trans (Nat.min_le_left _ _)
    have hdata : data = ((s.out.take s.length).drop s.sent).take n := by
      rw [load] at hload
      split at hload
      · rw [← Option.some.inj hload, List.drop_take, List.take_take, Nat.min_eq_left hle]
      · cases hload
    refine .sentSome n hpos hle hlength ?_
    show t.received = (t.delivered ++ data) ++ _
    rw [htalk, hdata, List.append_assoc, ← List.drop_drop, List.take_append_drop]

inductive Executed (w : Worker cfg) (talks : Talks) :
    Op cfg.slots → Worker cfg → Talks → ℤ → Prop where
  | received {fd : ℕ} {i : Fin cfg.slots} {len : ℕ} {data input : List UInt8} {t : Talk}
    {earlier : List Talk} : data ≠ [] → data.length ≤ len →
    store (w.slots i).input 0 data = some input → talks fd = t :: earlier →
    Executed w talks (.recv (some fd) i len) (w.setSlot i { w.slots i with input })
      (Function.update talks fd (t.hear data :: earlier)) data.length
  | receivedNone {fd : Option ℕ} {i : Fin cfg.slots} {len : ℕ} {z : ℤ} : z ≤ 0 →
    Executed w talks (.recv fd i len) w talks z
  | sent {fd : ℕ} {i : Fin cfg.slots} {off len n : ℕ} {data : List UInt8} {t : Talk}
    {earlier : List Talk} : 0 < n → n ≤ len → load (w.slots i).out off n = some data →
    talks fd = t :: earlier → Executed w talks (.send (some fd) i off len) w
      (Function.update talks fd (t.say data :: earlier)) n
  | sentNone {fd : Option ℕ} {i : Fin cfg.slots} {off len : ℕ} {z : ℤ} : z ≤ 0 →
    Executed w talks (.send fd i off len) w talks z
  | cancelled {fd : Option ℕ} {z : ℤ} : Executed w talks (.cancelFd fd) w talks z

theorem executed_of_execute {op : Op cfg.slots} {r : Result} {res : ℤ}
    (h : w.execute talks op r = some (w', talks', res)) : w.Executed talks op w' talks' res := by
  have hsame : ∀ {z : ℤ}, (w, talks, z) = (w', talks', res) → w = w' ∧ talks = talks' ∧ z = res := by
    intro z heq
    obtain ⟨hw, hrest⟩ := Prod.mk.inj heq
    exact ⟨hw, Prod.mk.inj hrest⟩
  rw [Worker.execute.eq_def] at h
  split at h
  · split at h
    · rename_i hdata
      obtain ⟨input, hstore, hpass⟩ := Option.bind_eq_some_iff.mp h
      obtain ⟨talks₁, htalks, heq⟩ := Option.map_eq_some_iff.mp hpass
      obtain ⟨rfl, hrest⟩ := Prod.mk.inj heq
      obtain ⟨rfl, rfl⟩ := Prod.mk.inj hrest
      obtain ⟨x, t, earlier, rfl, hx, rfl⟩ := Talks.of_pass htalks
      exact .received hdata.1 hdata.2 hstore hx
    · cases h
  · split at h
    · rename_i hz
      obtain ⟨rfl, rfl, rfl⟩ := hsame (Option.some.inj h)
      exact .receivedNone hz
    · cases h
  · split at h
    · rename_i hn
      obtain ⟨data, hload, hpass⟩ := Option.bind_eq_some_iff.mp h
      obtain ⟨talks₁, htalks, heq⟩ := Option.map_eq_some_iff.mp hpass
      obtain ⟨rfl, hrest⟩ := Prod.mk.inj heq
      obtain ⟨rfl, rfl⟩ := Prod.mk.inj hrest
      obtain ⟨x, t, earlier, rfl, hx, rfl⟩ := Talks.of_pass htalks
      exact .sent hn.1 hn.2 hload hx
    · cases h
  · split at h
    · rename_i hz
      obtain ⟨rfl, rfl, rfl⟩ := hsame (Option.some.inj h)
      exact .sentNone hz
    · cases h
  · obtain ⟨rfl, rfl, rfl⟩ := hsame (Option.some.inj h)
    exact .cancelled
  · cases h

/-- An answer that leaves the slot and its connection as they were. -/
private theorem Ok.answer (h : w.Ok k talks) {token : ℕ} {op : Op cfg.slots} {res : ℤ}
    (hx : w.pending[j]? = some (.flying token op)) (hi : isOf i token = true)
    (hdata : Data i (w.slots i) ((w.slots i).talk talks) (.flying token op) →
      Data i (w.slots i) ((w.slots i).talk talks) (.done ⟨token, res⟩))
    (hcancel : Cancel i (w.slots i) (.flying token op) →
      Cancel i (w.slots i) (.done ⟨token, res⟩)) :
    ({ w with pending := w.pending.set j (.done ⟨token, res⟩) } : Worker cfg).Ok k talks := by
  have hkept := h.exchange (y := .done ⟨token, res⟩) hx hi rfl (h.sized i) rfl rfl rfl rfl
    (fun _ _ => rfl) hdata fun C => ⟨hcancel C, rfl, rfl⟩
  rwa [setSlot_self] at hkept

/-- What the kernel does for a slot is on the slot's own descriptor, so that it goes over the
socket of the slot's connection. Of what went over the sockets only that changes, and it is still
echoed. -/
theorem Ok.execute (h : w.Ok k talks)
    (hone : ∀ i j x, (w.slots i).fd = some x → (w.slots j).fd = some x → j = i) {j token : ℕ}
    {op : Op cfg.slots} (hx : w.pending[j]? = some (.flying token op)) {res : ℤ}
    (hexec : w.Executed talks op w' talks' res) :
    ({ w' with pending := w'.pending.set j (.done ⟨token, res⟩) } : Worker cfg).Ok k talks' ∧
      (talks' = talks ∨ ∃ i x t t' earlier, (w.slots i).fd = some x ∧ talks x = t :: earlier ∧
        talks' = Function.update talks x (t' :: earlier) ∧ t'.Echoed cfg.capacity) := by
  rcases h.known _ (List.mem_of_getElem? hx) with ⟨i, hi⟩ | hother
  · have hmem : Item.flying token op ∈ slotItems i w.pending :=
      List.mem_filter.mpr ⟨List.mem_of_getElem? hx, hi⟩
    have hothers : ∀ {x : ℕ} {l : List Talk}, (w.slots i).fd = some x → ∀ m ≠ i,
        (w.slots m).talk (Function.update talks x l) = (w.slots m).talk talks := by
      intro x l hfd m hm
      exact Slot.talk_update_ne (fun hsome => hm (hone i m x hfd hsome)) l
    rcases (h.slot i trivial).mem hmem with D | C
    · have hflying : ¬ Cancel i (w.slots i) (.flying token op) :=
        fun C => D.flying_op C.flying_op
      generalize hop : Item.flying token op = item at D
      cases D with
      | receiving hlength htalk =>
        obtain ⟨rfl, rfl⟩ := Item.flying.inj hop
        generalize hfd : (w.slots i).fd = fd at hexec
        cases hexec with
        | @received x _ _ data input t earlier hdata hlen hstore htalks =>
          obtain ⟨hdone, hsized⟩ := Data.execute_recv (i := i) (h.sized i)
            (.receiving hlength htalk) hdata hlen hstore
          rw [Slot.talk_head hfd htalks] at hdone
          refine ⟨h.exchange hx hi rfl hsized rfl rfl rfl rfl (hothers hfd) (fun _ => ?_)
            fun C => absurd C hflying, .inr ⟨i, x, t, _, earlier, hfd, htalks, rfl, hdone.echoed⟩⟩
          rw [Slot.talk_update (s := { w.slots i with input }) hfd]
          exact hdone
        | receivedNone hz =>
          exact ⟨h.answer hx hi (fun _ => .receivedNone res hz htalk) fun C => absurd C hflying,
            .inl rfl⟩
      | sending hsent hlength htalk =>
        obtain ⟨rfl, rfl⟩ := Item.flying.inj hop
        generalize hfd : (w.slots i).fd = fd at hexec
        cases hexec with
        | @sent x _ _ _ n data t earlier hpos hn hload htalks =>
          have hdone := Data.execute_send (i := i) (.sending hsent hlength htalk) hpos hn hload
          rw [Slot.talk_head hfd htalks] at hdone
          have hkept : ({ w.setSlot i (w.slots i) with
              pending := w.pending.set j (.done ⟨Kind.send.tok i (w.slots i).gen, n⟩) } :
              Worker cfg).Ok k (Function.update talks x (t.say data :: earlier)) := by
            refine h.exchange hx hi rfl (h.sized i) rfl rfl rfl rfl (hothers hfd) (fun _ => ?_)
              fun C => absurd C hflying
            rw [Slot.talk_update hfd]
            exact hdone
          rw [setSlot_self] at hkept
          exact ⟨hkept, .inr ⟨i, x, t, _, earlier, hfd, htalks, rfl, hdone.echoed⟩⟩
        | sentNone hz =>
          exact ⟨h.answer hx hi (fun _ => .sentNone res hz hlength htalk) fun C => absurd C hflying,
            .inl rfl⟩
      | received | receivedNone | sentSome | sentNone => cases hop
    · cases C with
      | cancelling =>
        cases hexec with
        | cancelled =>
          refine ⟨h.answer hx hi ?_ fun _ => .cancelled res, .inl rfl⟩
          intro D
          exact absurd rfl D.flying_op
  · cases hother with
    | telling i => cases hexec

end Worker

end DragonsNet.Native.EchoUring
