/- GID: DragonsNet/Native/EchoAdmission
   source: native/echo_uring.c
   digest: Places and descriptors of the echo host across its threads, and the whole host. -/

import DragonsNet.Native.EchoSlots
import Mathlib.Algebra.Order.Ring.Nat

set_option autoImplicit false

namespace DragonsNet.Native.EchoUring

open Lib
open Lib.Cells
open Lib.Runs
open Native.EchoKernel
open Native.NntpRing (token tokenKind tokenSlot tokenGen)

variable {cfg : Config}

/-- What is counted of a descriptor that was given to the host or closed by it, and of one that
has a place: on its way to a slot or in one. What a place counts beside is counted of a place on
its way back, too. -/
structure Weights where
  closed : ℕ → ℕ
  held : ℕ → ℕ
  back : ℕ
  law : ∀ fd, held fd = closed fd + back

namespace Weights

def places : Weights := ⟨fun _ => 0, fun _ => 1, 1, fun _ => rfl⟩

def descriptor (fd : ℕ) : Weights where
  closed x := if x = fd then 1 else 0
  held x := if x = fd then 1 else 0
  back := 0
  law _ := rfl

variable (W : Weights)

def slot (s : Slot) : ℕ := (s.fd.map W.held).getD 0

def item : Item (Op cfg.slots) → ℕ
  | .flying _ (.message _ _) => W.back
  | .flying _ _ => 0
  | .done c =>
    match Kind.ofCode (tokenKind c.token) with
    | some .handed => W.held c.res.toNat
    | some .told => if c.res < 0 then W.back else 0
    | _ => 0

def mainItem : Item (MainOp cfg.threads) → ℕ
  | .flying _ (.message _ t res) =>
    if Kind.ofCode (tokenKind t) = some .handed then W.held res.toNat else 0
  | .flying _ _ => 0
  | .done c =>
    match Kind.ofCode (tokenKind c.token) with
    | some .freed => W.back
    | some .told => if c.res < 0 ∧ tokenGen c.token = 1 then W.held (tokenSlot c.token) else 0
    | some .accept => if 0 ≤ c.res then W.closed c.res.toNat else 0
    | _ => 0

def worker (w : Worker cfg) : ℕ :=
  (w.pending.map W.item).sum + ∑ j, W.slot (w.slots j) + (w.closed.map W.closed).sum

def main (m : Main cfg) : ℕ := (m.pending.map W.mainItem).sum + (m.closed.map W.closed).sum

def host (h : Host cfg) : ℕ := W.main h.main + ∑ k, W.worker (h.workers k)

end Weights

section Lists

variable {α : Type} {l : List α} {n : ℕ} {a : α}

private theorem sum_map_eraseIdx (ha : l[n]? = some a) (f : α → ℕ) :
    (l.map f).sum = ((l.eraseIdx n).map f).sum + f a := by
  obtain ⟨before, after, hl, herase, -⟩ := Lists.exists_around ha
  rw [herase, hl, List.map_append, List.map_append, List.sum_append, List.sum_append,
    List.map_cons, List.sum_cons]
  omega

private theorem sum_map_set (ha : l[n]? = some a) (b : α) (f : α → ℕ) :
    ((l.set n b).map f).sum + f a = (l.map f).sum + f b := by
  obtain ⟨before, after, hl, -, hset⟩ := Lists.exists_around ha
  rw [hset b, hl, List.map_append, List.map_append, List.sum_append, List.sum_append,
    List.map_cons, List.map_cons, List.sum_cons, List.sum_cons]
  omega

private theorem sum_map_concat (l : List α) (a : α) (f : α → ℕ) :
    ((l ++ [a]).map f).sum = (l.map f).sum + f a := by
  rw [List.map_append, List.sum_append, List.map_singleton, List.sum_singleton]

end Lists

namespace Worker

variable {k now : ℕ} {w : Worker cfg} {i : Fin cfg.slots} {W : Weights} {talks : Talks} {s : Slot}
  {w₁ w₂ w₃ : Worker cfg} {w' : Worker cfg} {kind : Kind} {x : Item (Op cfg.slots)}

private theorem weight_setSlot (W : Weights) (w : Worker cfg) (i : Fin cfg.slots) (s : Slot) :
    W.worker (w.setSlot i s) + W.slot (w.slots i) = W.worker w + W.slot s := by
  have hsum := Runs.sum_update W.slot w.slots i s
  simp only [Weights.worker, Worker.setSlot]
  omega

theorem weight_submit (W : Weights) (w : Worker cfg) (token : ℕ) (op : Op cfg.slots) :
    W.worker (w.submit token op) = W.worker w + W.item (.flying token op) := by
  simp only [Weights.worker, Worker.submit, sum_map_concat]
  omega

private theorem weight_setSlot_of_fd (W : Weights) (w : Worker cfg) (i : Fin cfg.slots)
    (hfd : s.fd = (w.slots i).fd) : W.worker (w.setSlot i s) = W.worker w := by
  have hset := weight_setSlot W w i s
  have hsame : W.slot s = W.slot (w.slots i) := by rw [Weights.slot, Weights.slot, hfd]
  omega

/-- What was closed stays so, and a descriptor leaves its slot only to be closed. -/
structure Keeps (w w' : Worker cfg) : Prop where
  closed : w.closed <+: w'.closed
  slots : ∀ i fd, (w.slots i).fd = some fd →
    (w'.slots i).fd = some fd ∨ w.closed.count fd < w'.closed.count fd

theorem Keeps.of_eq {w w' : Worker cfg} (hslots : ∀ i, (w'.slots i).fd = (w.slots i).fd)
    (hclosed : w'.closed = w.closed) : Keeps w w' :=
  ⟨hclosed ▸ List.prefix_rfl, fun i _ hfd => .inl ((hslots i).trans hfd)⟩

theorem Keeps.trans (h₁ : Keeps w₁ w₂) (h₂ : Keeps w₂ w₃) : Keeps w₁ w₃ := by
  refine ⟨h₁.closed.trans h₂.closed, ?_⟩
  intro i fd hfd
  have hle := h₂.closed.sublist.count_le fd
  rcases h₁.slots i fd hfd with hsame | hlt
  · rcases h₂.slots i fd hsame with hkept | hlt
    · exact .inl hkept
    · exact .inr ((h₁.closed.sublist.count_le fd).trans_lt hlt)
  · exact .inr (hlt.trans_le hle)

/-- Besides, the two states of a thread count the same. -/
structure Same (w w' : Worker cfg) : Prop where
  weight : ∀ W : Weights, W.worker w' = W.worker w
  keeps : Keeps w w'

theorem Same.trans (h₁ : Same w₁ w₂) (h₂ : Same w₂ w₃) : Same w₁ w₃ :=
  ⟨fun W => (h₂.weight W).trans (h₁.weight W), h₁.keeps.trans h₂.keeps⟩


/-- Besides, the thread adds to what its ring has pending, and serves on or stops as before. -/
structure Grows (w w' : Worker cfg) : Prop where
  same : Same w w'
  pending : w.pending <+: w'.pending
  stopping : w'.stopping = w.stopping

theorem Grows.refl (w : Worker cfg) : Grows w w :=
  ⟨⟨fun _ => rfl, .of_eq (fun _ => rfl) rfl⟩, List.prefix_rfl, rfl⟩

theorem Grows.trans (h₁ : Grows w₁ w₂) (h₂ : Grows w₂ w₃) : Grows w₁ w₃ :=
  ⟨h₁.same.trans h₂.same, h₁.pending.trans h₂.pending, h₂.stopping.trans h₁.stopping⟩

private theorem setSlot_fd (w : Worker cfg) (hfd : s.fd = (w.slots i).fd) (j : Fin cfg.slots) :
    ((w.setSlot i s).slots j).fd = (w.slots j).fd := by
  by_cases hj : j = i
  · rw [hj, setSlot_slots_self, hfd]
  · rw [setSlot_slots_of_ne w hj]

private theorem grows_setSlot (w : Worker cfg) (i : Fin cfg.slots) (hfd : s.fd = (w.slots i).fd) :
    Grows w (w.setSlot i s) :=
  ⟨⟨fun W => weight_setSlot_of_fd W w i hfd, .of_eq (setSlot_fd w hfd) rfl⟩, List.prefix_rfl, rfl⟩

private theorem grows_ask (w : Worker cfg) (i : Fin cfg.slots) {token : ℕ} {op : Op cfg.slots}
    (hop : ∀ W : Weights, W.item (.flying token op) = 0) (hfd : s.fd = (w.slots i).fd) :
    Grows w ((w.submit token op).setSlot i s) := by
  have hsubmit : Grows w (w.submit token op) := by
    refine ⟨⟨?_, .of_eq (fun _ => rfl) rfl⟩, List.prefix_append _ _, rfl⟩
    intro W
    rw [weight_submit, hop W, Nat.add_zero]
  exact hsubmit.trans (grows_setSlot _ i hfd)

private theorem grows_armRecv (w : Worker cfg) (i : Fin cfg.slots) : Grows w (w.armRecv i) :=
  grows_ask w i (fun _ => rfl) rfl

private theorem grows_armSend (w : Worker cfg) (i : Fin cfg.slots) : Grows w (w.armSend i) :=
  grows_ask w i (fun _ => rfl) rfl

private theorem grows_finish (k : ℕ) (w : Worker cfg) (i : Fin cfg.slots)
    (hfd : (w.slots i).fd.isSome = true) : Grows w (w.finish k i) := by
  obtain ⟨fd, hsome⟩ := Option.isSome_iff_exists.mp hfd
  have hcloses : (w.finish k i).closed = w.closed ++ [fd] := by
    show w.closed ++ (w.slots i).fd.toList = _
    rw [hsome, Option.toList_some]
  refine ⟨⟨?_, hcloses ▸ List.prefix_append _ _, ?_⟩, List.prefix_append _ _, rfl⟩
  swap
  · intro j x hx
    by_cases hj : j = i
    · subst hj
      obtain rfl : fd = x := Option.some.inj (hsome.symm.trans hx)
      refine .inr ?_
      rw [hcloses, List.count_append, List.count_singleton_self]
      exact Nat.lt_succ_self _
    · exact .inl ((congrArg Slot.fd (Function.update_of_ne hj ..)).trans hx)
  intro W
  have hslot : W.slot (w.slots i) = W.held fd := by rw [Weights.slot, hsome]; rfl
  have hset := weight_setSlot W
    { w with
      held := decr w.held
      closed := w.closed ++ (w.slots i).fd.toList } i
    { w.slots i with fd := none, closing := false, length := 0, sent := 0 }
  have hnone : W.slot { w.slots i with fd := none, closing := false, length := 0, sent := 0 } = 0 :=
    rfl
  have hclosed : W.worker
      { w with
        held := decr w.held
        closed := w.closed ++ (w.slots i).fd.toList } = W.worker w + W.closed fd := by
    simp only [Weights.worker, hsome, Option.toList_some, sum_map_concat]
    omega
  have hlaw := W.law fd
  rw [Worker.finish, weight_submit]
  change W.worker _ + W.back = W.worker w
  dsimp only at hset hnone hclosed ⊢
  omega

private theorem grows_endConn (k : ℕ) (w : Worker cfg) (i : Fin cfg.slots)
    (hfd : (w.slots i).fd.isSome = true) : Grows w (w.endConn k i) := by
  rw [Worker.endConn]
  split
  · exact .refl w
  · split
    · have hclosing : Grows w (w.setSlot i { w.slots i with closing := true }) :=
        grows_setSlot w i rfl
      refine hclosing.trans (grows_finish k _ i ?_)
      rw [setSlot_slots_self]
      exact hfd
    · exact grows_ask w i (fun _ => rfl) rfl

private theorem grows_count (w : Worker cfg) (f : Counts → Counts) : Grows w (w.count f) :=
  ⟨⟨fun _ => rfl, .of_eq (fun _ => rfl) rfl⟩, List.prefix_rfl, rfl⟩

private theorem grows_counted (w : Worker cfg) (f : Counts → Counts) (i : Fin cfg.slots)
    (hfd : s.fd = (w.slots i).fd) : Grows w ((w.count f).setSlot i s) :=
  (grows_count w f).trans (grows_setSlot _ i hfd)

private theorem grows_heard {n : ℕ} (h : w.heard now i n = .ok w') : Grows w w' := by
  rw [Worker.heard] at h
  split at h
  · cases h
  · split at h
    · cases h
    · obtain rfl := Except.ok.inj h
      refine (grows_counted w _ i ?_).trans (grows_armSend _ i)
      rfl

private theorem grows_said {n : ℕ} (h : w.said now i n = .ok w') : Grows w w' := by
  rw [Worker.said] at h
  split at h
  · cases h
  · obtain rfl := Except.ok.inj h
    split
    · refine (grows_counted w _ i ?_).trans (grows_armSend _ i)
      rfl
    · refine (grows_counted w _ i ?_).trans (grows_armRecv _ i)
      rfl

private theorem grows_reaped {res : ℤ} (hfd : (w.slots i).fd.isSome = true)
    (h : w.reaped k now i kind res = .ok w') : Grows w w' := by
  rw [Worker.reaped] at h
  split at h
  · obtain rfl := Except.ok.inj h
    split
    · exact grows_finish k w i hfd
    · exact .refl w
  · split at h
    · obtain rfl := Except.ok.inj h
      exact grows_endConn k w i hfd
    · split at h
      · exact grows_heard h
      · exact grows_said h

private theorem slotCompleted_cases {c : Cqe} (h : w.slotCompleted k now kind c = .ok w') :
    ∃ i, (w.slots i).fd.isSome = true ∧ (w.reap i c).reaped k now i kind c.res = .ok w' := by
  rw [Worker.slotCompleted] at h
  split at h
  · rename_i hlt
    split at h
    · cases h
    · rename_i hgood
      refine ⟨⟨tokenSlot c.token, hlt⟩, ?_, h⟩
      rw [← Option.not_isNone, Bool.eq_false_of_not_eq_true fun hnone => hgood (.inl hnone)]
      rfl
  · cases h

theorem grows_slotCompleted {c : Cqe} (h : w.slotCompleted k now kind c = .ok w') : Grows w w' := by
  obtain ⟨i, hfd, hreaped⟩ := slotCompleted_cases h
  have hreap : Grows w (w.reap i c) := grows_counted w _ i rfl
  refine hreap.trans (grows_reaped ?_ hreaped)
  rw [Worker.reap, setSlot_slots_self]
  exact hfd

theorem take_spec {fd : ℕ} (h : w.take k now fd = .ok w') :
    (∀ W : Weights, W.worker w' = W.worker w + W.held fd) ∧ Keeps w w' ∧
      w.pending <+: w'.pending ∧ w'.stopping = w.stopping := by
  obtain ⟨i, hnone, -, rfl⟩ := take_cases h
  have hself : (w.opened now i fd).slots i = _ := setSlot_slots_self ..
  have hgrows : Grows (w.opened now i fd)
      (if w.stopping then (w.opened now i fd).endConn k i else (w.opened now i fd).armRecv i) := by
    split
    · exact grows_endConn k _ i (by rw [hself]; rfl)
    · exact grows_armRecv _ i
  have hopened : Keeps w (w.opened now i fd) := by
    refine ⟨List.prefix_rfl, ?_⟩
    intro j x hx
    have hj : j ≠ i := by
      rintro rfl
      rw [hnone] at hx
      cases hx
    exact .inl ((congrArg Slot.fd (Function.update_of_ne hj ..)).trans hx)
  refine ⟨?_, hopened.trans hgrows.same.keeps, hgrows.pending, hgrows.stopping⟩
  intro W
  have hset : W.worker (w.opened now i fd) + W.slot (w.slots i) =
      W.worker w + W.slot ((w.opened now i fd).slots i) := by
    rw [hself]
    exact weight_setSlot W { w with held := w.held + 1 } i _
  have hold : W.slot (w.slots i) = 0 := by rw [Weights.slot, hnone]; rfl
  have hnew : W.slot ((w.opened now i fd).slots i) = W.held fd := by rw [hself]; rfl
  rw [hgrows.same.weight W]
  omega

theorem stopped_spec (k : ℕ) (w : Worker cfg) :
    Same w (w.stopped k) ∧ w.pending <+: (w.stopped k).pending ∧ (w.stopped k).stopping = true := by
  refine foldl_keeps (P := fun w' : Worker cfg =>
    Same w w' ∧ w.pending <+: w'.pending ∧ w'.stopping = true) ?_ _
    ⟨⟨fun _ => rfl, .of_eq (fun _ => rfl) rfl⟩, List.prefix_rfl, rfl⟩
  rintro w' i ⟨hsame, hpending, hstop⟩
  split
  · rename_i hsome
    have hended := grows_endConn k w' i hsome
    exact ⟨hsame.trans hended.same, hpending.trans hended.pending, hended.stopping.trans hstop⟩
  · exact ⟨hsame, hpending, hstop⟩

theorem grows_expire (k now : ℕ) (w : Worker cfg) : Grows w (w.expire k now) := by
  refine foldl_keeps ?_ _ (Grows.refl w)
  intro w' i hgrows
  refine hgrows.trans ?_
  rw [Worker.expireSlot]
  split
  · exact .refl w'
  · rename_i hnot
    split
    · refine (grows_count w' _).trans (grows_endConn k _ i ?_)
      show (w'.slots i).fd.isSome = true
      rw [← Option.not_isNone, Bool.eq_false_of_not_eq_true fun hnone => hnot (.inl hnone)]
      rfl
    · exact .refl w'

private theorem same_completed {j : ℕ} {c : Cqe} (hc : w.pending[j]? = some (.done c))
    (h : ({ w with pending := w.pending.eraseIdx j } : Worker cfg).completed k now c = .ok w') :
    Same w w' := by
  have herase : ∀ W : Weights, W.worker { w with pending := w.pending.eraseIdx j } +
      W.item (.done c : Item (Op cfg.slots)) = W.worker w := by
    intro W
    have hsum := sum_map_eraseIdx hc W.item
    simp only [Weights.worker]
    omega
  have hnothing : (∀ W : Weights, W.item (.done c : Item (Op cfg.slots)) = 0) →
      Same w { w with pending := w.pending.eraseIdx j } := by
    intro hitem
    refine ⟨?_, .of_eq (fun _ => rfl) rfl⟩
    intro W
    have hweight := herase W
    rw [hitem W] at hweight
    exact hweight
  have hslot : ∀ {kind : Kind}, Kind.ofCode (tokenKind c.token) = some kind → kind.ofConn = true →
      ({ w with pending := w.pending.eraseIdx j } : Worker cfg).slotCompleted k now kind c = .ok w' →
      Same w w' := by
    intro kind hkind hconn hdone
    refine (hnothing ?_).trans (grows_slotCompleted hdone).same
    intro W
    rw [Weights.item, hkind]
    cases kind with
    | recv | send | cancel => rfl
    | accept | signal | told | handed | freed | stop => cases hconn
  rw [Worker.completed] at h
  split at h
  · rename_i hkind
    obtain ⟨hweight, hkeeps, -⟩ := take_spec h
    refine ⟨?_, hkeeps.closed, hkeeps.slots⟩
    intro W
    have hbefore := herase W
    have hafter := hweight W
    rw [Weights.item, hkind] at hbefore
    dsimp only at hbefore hafter
    omega
  · rename_i hkind
    obtain rfl := Except.ok.inj h
    refine (hnothing ?_).trans (stopped_spec k _).1
    intro W
    rw [Weights.item, hkind]
  · rename_i hkind
    split at h
    · cases h
    · rename_i hres
      obtain rfl := Except.ok.inj h
      refine hnothing ?_
      intro W
      rw [Weights.item, hkind]
      exact if_neg hres
  · exact hslot ‹_› rfl h
  · exact hslot ‹_› rfl h
  · exact hslot ‹_› rfl h
  · cases h

private theorem Ok.same_execute (hok : w.Ok k talks) {j token : ℕ} {op : Op cfg.slots}
    (hx : w.pending[j]? = some (.flying token op)) {talks' : Talks} {res : ℤ}
    (hexec : w.Executed talks op w' talks' res) :
    Same w { w' with pending := w'.pending.set j (.done ⟨token, res⟩) } := by
  have hkept : w'.pending = w.pending ∧ Same w w' ∧
      ∀ W : Weights, W.item (.flying token op) = 0 := by
    cases hexec with
    | received =>
      refine ⟨rfl, Grows.same (grows_setSlot w _ ?_), fun _ => rfl⟩
      rfl
    | sent | receivedNone | sentNone | cancelled =>
      exact ⟨rfl, (Grows.refl w).same, fun _ => rfl⟩
  obtain ⟨hpending, hsame, hflying⟩ := hkept
  refine ⟨?_, hsame.keeps.closed, hsame.keeps.slots⟩
  intro W
  have hweight := hsame.weight W
  have hitem := hflying W
  have hdone : W.item (.done ⟨token, res⟩ : Item (Op cfg.slots)) = 0 := by
    rcases hok.known _ (List.mem_of_getElem? hx) with ⟨i, hi⟩ | hother
    · obtain ⟨kind, hkind, hconn, -⟩ := isOf_iff.mp hi
      change Kind.ofCode (tokenKind token) = some kind at hkind
      rw [Weights.item, hkind]
      cases kind with
      | recv | send | cancel => rfl
      | accept | signal | told | handed | freed | stop => cases hconn
    · cases hother with
      | telling i => cases hexec
  have hsum := sum_map_set (hpending.symm ▸ hx) (.done ⟨token, res⟩) W.item
  simp only [Weights.worker] at hweight ⊢
  omega

theorem Ok.append (hok : w.Ok k talks) (hx : Other k x) :
    ({ w with pending := w.pending ++ [x] } : Worker cfg).Ok k talks := by
  refine ⟨hok.sized, ?_, ?_, hok.held⟩
  · intro j _
    show SlotOk j (w.slots j) _ (slotItems j (w.pending ++ [x]))
    rw [slotItems_append_not (hx.not_isOf j)]
    exact hok.slot j trivial
  · exact List.forall_mem_append.mpr ⟨hok.known, List.forall_mem_singleton.mpr (.inr hx)⟩

private theorem Ok.exchange_other (hok : w.Ok k talks) {j : ℕ} {x y : Item (Op cfg.slots)}
    (hx : w.pending[j]? = some x) (hother : Other k x) (hother' : Other k y) :
    ({ w with pending := w.pending.set j y } : Worker cfg).Ok k talks := by
  obtain ⟨before, after, hsplit, -, hset⟩ := Lists.exists_around hx
  have hset := hset y
  refine ⟨hok.sized, ?_, ?_, hok.held⟩
  · intro m _
    have hslot := hok.slot m trivial
    rw [hsplit] at hslot
    show SlotOk m (w.slots m) _ (slotItems m (w.pending.set j y))
    rw [hset]
    simpa only [slotItems, List.filter_append, List.filter_cons, hother.not_isOf,
      hother'.not_isOf, Bool.false_eq_true, if_false] using hslot
  · intro z hz
    rcases List.mem_or_eq_of_mem_set hz with hold | rfl
    · exact hok.known z hold
    · exact .inr hother'

private theorem weight_append (W : Weights) (w : Worker cfg) (x : Item (Op cfg.slots)) :
    W.worker { w with pending := w.pending ++ [x] } = W.worker w + W.item x := by
  simp only [Weights.worker, sum_map_concat]
  omega

theorem weight_exchange (W : Weights) {j : ℕ} (hx : w.pending[j]? = some x)
    (y : Item (Op cfg.slots)) :
    W.worker { w with pending := w.pending.set j y } + W.item x = W.worker w + W.item y := by
  have hsum := sum_map_set hx y W.item
  simp only [Weights.worker]
  omega

private theorem Ok.exists_free (hok : w.Ok k talks) {j fd : ℕ}
    (hx : w.pending[j]? = some (.done ⟨Kind.handed.tok 0 0, fd⟩))
    (hroom : Weights.places.worker w ≤ cfg.slots) : ∃ i, isFree (w.slots i) = true := by
  have hitem : Weights.places.item
      (.done ⟨Kind.handed.tok 0 0, fd⟩ : Item (Op cfg.slots)) = 1 := by
    rw [Weights.item, ofCode_tok]
    rfl
  have hsum := sum_map_eraseIdx hx Weights.places.item
  rw [hitem] at hsum
  have hsome : ∃ i, (w.slots i).fd = none := by
    by_contra hall
    have hheld : ∀ i, Weights.places.slot (w.slots i) = 1 := by
      intro i
      obtain ⟨x, hsome⟩ := Option.ne_none_iff_exists'.mp fun hnone => hall ⟨i, hnone⟩
      rw [Weights.slot, hsome]
      rfl
    rw [Weights.worker, Finset.sum_congr rfl fun i _ => hheld i, Finset.sum_const,
      Finset.card_univ, Fintype.card_fin, smul_eq_mul, Nat.mul_one] at hroom
    omega
  obtain ⟨i, hnone⟩ := hsome
  refine ⟨i, ?_⟩
  rw [isFree, hnone, (hok.free_slot hnone).1]
  rfl

end Worker

namespace Main

variable {now : ℕ} {m : Main cfg} {W : Weights} {j : ℕ} {x : Item (MainOp cfg.threads)}

inductive Known : Item (MainOp cfg.threads) → Prop where
  | accepting : Known (.flying (Kind.accept.tok 0 0) .accept)
  | accepted (z : ℤ) : z < 2 ^ 24 → Known (.done ⟨Kind.accept.tok 0 0, z⟩)
  | polling : Known (.flying (Kind.signal.tok 0 0) .poll)
  | polled (z : ℤ) : Known (.done ⟨Kind.signal.tok 0 0, z⟩)
  | cancelling (a t : ℕ) : Known (.flying (Kind.cancel.tok a 0) (.cancel t))
  | cancelled (a : ℕ) (z : ℤ) : Known (.done ⟨Kind.cancel.tok a 0, z⟩)
  | handing (fd : ℕ) (k : Fin cfg.threads) : fd < 2 ^ 24 →
    Known (.flying (Kind.told.tok fd 1) (.message k (Kind.handed.tok 0 0) fd))
  | handed (fd : ℕ) (z : ℤ) : fd < 2 ^ 24 → Known (.done ⟨Kind.told.tok fd 1, z⟩)
  | stopping (k : Fin cfg.threads) :
    Known (.flying (Kind.told.tok k 0) (.message k (Kind.stop.tok 0 0) 0))
  | stopped (k : ℕ) (z : ℤ) : Known (.done ⟨Kind.told.tok k 0, z⟩)
  | freed (k : ℕ) : Known (.done ⟨Kind.freed.tok k 0, 0⟩)

def isAccept (x : Item (MainOp cfg.threads)) : Bool :=
  Kind.ofCode (tokenKind x.token) = some .accept

private theorem isAccept_flying (kind : Kind) (slot gen : ℕ) (op : MainOp cfg.threads) :
    isAccept (.flying (kind.tok slot gen) op) = decide (kind = .accept) := by
  rw [isAccept, Item.token, ofCode_tok]
  simp only [Option.some.injEq]

/-- What holds of the main thread between its steps: no more accepts than it knows of, and no
more connections than there are slots. -/
structure Ok (m : Main cfg) : Prop where
  known : ∀ x ∈ m.pending, Known x
  accepts : m.pending.countP isAccept = m.accepting.toNat
  room : m.admitted + m.accepting.toNat ≤ cfg.slots

structure Quiet (m m' : Main cfg) : Prop where
  ok : m'.Ok
  weight : ∀ W : Weights, W.main m' = W.main m
  admitted : m'.admitted = m.admitted
  closed : m'.closed = m.closed

theorem Quiet.trans {m₁ m₂ m₃ : Main cfg} (h₁ : m₁.Quiet m₂) (h₂ : m₂.Quiet m₃) :
    m₁.Quiet m₃ :=
  ⟨h₂.ok, fun W => (h₂.weight W).trans (h₁.weight W), h₂.admitted.trans h₁.admitted,
    h₂.closed.trans h₁.closed⟩

theorem weight_submit (W : Weights) (m : Main cfg) (token : ℕ) (op : MainOp cfg.threads) :
    W.main (m.submit token op) = W.main m + W.mainItem (.flying token op) := by
  simp only [Weights.main, Main.submit, sum_map_concat]
  omega

theorem Ok.submit (h : m.Ok) {kind : Kind} {slot gen : ℕ} {op : MainOp cfg.threads}
    (hknown : Known (.flying (kind.tok slot gen) op)) (hkind : kind ≠ .accept)
    (hweight : ∀ W : Weights, W.mainItem (.flying (kind.tok slot gen) op) = 0) :
    m.Quiet (m.submit (kind.tok slot gen) op) := by
  refine ⟨⟨?_, ?_, h.room⟩, ?_, rfl, rfl⟩
  · exact List.forall_mem_append.mpr ⟨h.known, List.forall_mem_singleton.mpr hknown⟩
  · show (m.pending ++ [_]).countP isAccept = m.accepting.toNat
    rw [List.countP_append, List.countP_singleton, isAccept_flying, decide_eq_false hkind,
      h.accepts]
    rfl
  · intro W
    rw [weight_submit, hweight W, Nat.add_zero]

theorem Ok.tellStop (h : m.Ok) : m.Quiet m.tellStop := by
  refine Worker.foldl_keeps ?_ _ (⟨h, fun _ => rfl, rfl, rfl⟩ : m.Quiet m)
  intro m' k hquiet
  refine hquiet.trans (hquiet.ok.submit (.stopping k) (by decide) ?_)
  intro W
  rw [Weights.mainItem, ofCode_tok]
  rfl

theorem Ok.cancelIf (h : m.Ok) (armed : Bool) (slot token : ℕ) :
    m.Quiet (m.cancelIf armed slot token) := by
  rw [Main.cancelIf]
  split
  · exact h.submit (.cancelling slot token) (by decide) fun _ => rfl
  · exact ⟨h, fun _ => rfl, rfl, rfl⟩

theorem Ok.stop (h : m.Ok) : m.Quiet m.stop := by
  rw [Main.stop]
  split
  · exact ⟨h, fun _ => rfl, rfl, rfl⟩
  · have hfirst : m.Quiet { m with stopping := true } :=
      ⟨⟨h.known, h.accepts, h.room⟩, fun _ => rfl, rfl, rfl⟩
    have haccept := hfirst.trans (hfirst.ok.cancelIf m.accepting 0 (Kind.accept.tok 0 0))
    have hsignal := haccept.trans (haccept.ok.cancelIf m.signalArmed 1 (Kind.signal.tok 0 0))
    exact hsignal.trans hsignal.ok.tellStop

private theorem countP_eraseIdx_isAccept (hx : m.pending[j]? = some x) :
    m.pending.countP isAccept = (m.pending.eraseIdx j).countP isAccept +
      (isAccept x).toNat := by
  rw [Lists.countP_eraseIdx hx isAccept]
  cases isAccept x <;> rfl

private theorem weight_erase (hx : m.pending[j]? = some x) (W : Weights) :
    W.main { m with pending := m.pending.eraseIdx j } + W.mainItem x = W.main m := by
  have hsum := sum_map_eraseIdx hx W.mainItem
  simp only [Weights.main]
  omega

/-- What a completion does to what is counted, and to the places admitted: the two move
together. -/
structure Takes (m m' : Main cfg) : Prop where
  ok : m'.Ok
  weight : ∀ W : Weights, W.main m' + m.admitted * W.back = W.main m + m'.admitted * W.back
  closed : m.closed <+: m'.closed

theorem Quiet.takes {m' : Main cfg} (h : m.Quiet m') : m.Takes m' :=
  ⟨h.ok, fun W => by rw [h.weight W, h.admitted], h.closed.symm ▸ List.prefix_rfl⟩

theorem Ok.erase (h : m.Ok) (hx : m.pending[j]? = some x) (haccept : isAccept x = false) :
    ({ m with pending := m.pending.eraseIdx j } : Main cfg).Ok := by
  refine ⟨fun y hy => h.known y (List.eraseIdx_subset hy), ?_, h.room⟩
  have hcount := countP_eraseIdx_isAccept hx
  rw [haccept, h.accepts] at hcount
  exact hcount.symm

private theorem Ok.erase_accept (h : m.Ok) (hx : m.pending[j]? = some x)
    (haccept : isAccept x = true) :
    ({ m with pending := m.pending.eraseIdx j, accepting := false } : Main cfg).Ok ∧
      m.admitted < cfg.slots := by
  have hcount := countP_eraseIdx_isAccept hx
  have hroom := h.room
  rw [haccept, h.accepts] at hcount
  have htrue : m.accepting = true := by
    by_contra hfalse
    rw [Bool.eq_false_of_not_eq_true hfalse] at hcount
    have hle : Bool.toNat true = 1 := rfl
    have hzero : Bool.toNat false = 0 := rfl
    omega
  rw [htrue] at hcount hroom
  have hone : Bool.toNat true = 1 := rfl
  refine ⟨⟨fun y hy => h.known y (List.eraseIdx_subset hy), ?_, ?_⟩, by omega⟩
  · show (m.pending.eraseIdx j).countP isAccept = 0
    omega
  · show m.admitted + 0 ≤ cfg.slots
    omega

theorem Ok.hand (h : m.Ok) (hroom : m.admitted + 1 + m.accepting.toNat ≤ cfg.slots) {fd : ℕ}
    (hfd : fd < 2 ^ 24) (shaped : Bool) :
    (m.hand fd shaped).Ok ∧ m.closed <+: (m.hand fd shaped).closed ∧
      ∀ W : Weights, W.main (m.hand fd shaped) + m.admitted * W.back =
        W.main m + W.closed fd + (m.hand fd shaped).admitted * W.back := by
  rw [Main.hand]
  split
  · refine ⟨⟨h.known, h.accepts, h.room⟩, List.prefix_append _ _, ?_⟩
    intro W
    simp only [Weights.main, sum_map_concat]
    omega
  · refine ⟨⟨?_, ?_, hroom⟩, List.prefix_rfl, ?_⟩
    · exact List.forall_mem_append.mpr ⟨h.known, List.forall_mem_singleton.mpr (.handing fd _ hfd)⟩
    · show (m.pending ++ [_]).countP isAccept = m.accepting.toNat
      rw [List.countP_append, List.countP_singleton, isAccept_flying, h.accepts]
      rfl
    · intro W
      have hitem : W.mainItem (.flying (Kind.told.tok fd 1)
          (.message m.nextThread (Kind.handed.tok 0 0) fd) : Item (MainOp cfg.threads)) =
          W.closed fd + W.back := by
        rw [Weights.mainItem, ofCode_tok, if_pos rfl]
        exact W.law fd
      rw [weight_submit, hitem]
      show W.main m + _ + _ = W.main m + _ + (m.admitted + 1) * W.back
      rw [Nat.add_mul]
      omega

private theorem Ok.erase_quiet (h : m.Ok) (hx : m.pending[j]? = some x)
    (haccept : isAccept x = false)
    (hitem : ∀ W : Weights, W.mainItem x = 0) :
    m.Quiet { m with pending := m.pending.eraseIdx j } := by
  refine ⟨h.erase hx haccept, ?_, rfl, rfl⟩
  intro W
  have hsum := weight_erase hx W
  rw [hitem W] at hsum
  exact hsum

theorem Ok.accepted (h : m.Ok) {z : ℤ} (hc : m.pending[j]? = some (.done ⟨Kind.accept.tok 0 0, z⟩))
    (hz : z < 2 ^ 24) (answer : Bool) :
    ∃ m', ({ m with pending := m.pending.eraseIdx j } : Main cfg).mainCompleted now
      ⟨Kind.accept.tok 0 0, z⟩ answer = .ok m' ∧ m.Takes m' := by
  have hweight := weight_erase hc
  have haccept : isAccept (.done ⟨Kind.accept.tok 0 0, z⟩ : Item (MainOp cfg.threads)) =
      true := by
    rw [isAccept, Item.token, ofCode_tok]
    rfl
  obtain ⟨hok, hless⟩ := h.erase_accept hc haccept
  have hsame : ∀ W : Weights,
      W.main { m with pending := m.pending.eraseIdx j, accepting := false } =
        W.main { m with pending := m.pending.eraseIdx j } := fun _ => rfl
  rw [Main.mainCompleted]
  simp only [ofCode_tok]
  refine ⟨_, rfl, ?_⟩
  split
  · rename_i hnonneg
    have hitem : ∀ W : Weights, W.mainItem
        (.done ⟨Kind.accept.tok 0 0, z⟩ : Item (MainOp cfg.threads)) = W.closed z.toNat := by
      intro W
      rw [Weights.mainItem, ofCode_tok]
      exact if_pos hnonneg
    split
    · refine ⟨⟨hok.known, hok.accepts, hok.room⟩, ?_, List.prefix_append _ _⟩
      intro W
      have hsum := hweight W
      rw [hitem W] at hsum
      simp only [Weights.main, sum_map_concat] at hsum ⊢
      omega
    · have hfd : z.toNat < 2 ^ 24 := by omega
      have hplace : ({ m with pending := m.pending.eraseIdx j, accepting := false } :
          Main cfg).admitted + 1 + Bool.toNat false ≤ cfg.slots := by
        show m.admitted + 1 + 0 ≤ cfg.slots
        omega
      obtain ⟨hhanded, hclosed, hmoved⟩ := hok.hand hplace hfd answer
      refine ⟨hhanded, ?_, hclosed⟩
      intro W
      have hsum := hweight W
      have hnow := hmoved W
      have hlist := hsame W
      rw [hitem W] at hsum
      dsimp only at hnow hsum hlist ⊢
      omega
  · rename_i hneg
    have hquiet : ∀ {m' : Main cfg},
        ({ m with pending := m.pending.eraseIdx j, accepting := false } : Main cfg).Quiet m' →
        m.Takes m' := by
      intro m' hm'
      refine ⟨hm'.ok, ?_, hm'.closed.symm ▸ List.prefix_rfl⟩
      intro W
      have hsum := hweight W
      have hlist := hsame W
      have hitem : W.mainItem
          (.done ⟨Kind.accept.tok 0 0, z⟩ : Item (MainOp cfg.threads)) = 0 := by
        rw [Weights.mainItem, ofCode_tok]
        exact if_neg hneg
      rw [hm'.weight W, hm'.admitted]
      dsimp only at hsum hlist ⊢
      omega
    split
    · exact hquiet ⟨hok, fun _ => rfl, rfl, rfl⟩
    · split
      · exact hquiet ⟨⟨hok.known, hok.accepts, hok.room⟩, fun _ => rfl, rfl, rfl⟩
      · exact hquiet ⟨⟨hok.known, hok.accepts, hok.room⟩, fun _ => rfl, rfl, rfl⟩
      · have hresult : ({ m with
            pending := m.pending.eraseIdx j, accepting := false, result := 1 } : Main cfg).Ok :=
          ⟨hok.known, hok.accepts, hok.room⟩
        exact hquiet ⟨hresult.stop.ok, fun W => (hresult.stop.weight W).trans rfl,
          hresult.stop.admitted, hresult.stop.closed⟩

private theorem isAccept_done (kind : Kind) (slot gen : ℕ) (z : ℤ) :
    isAccept (.done ⟨kind.tok slot gen, z⟩ : Item (MainOp cfg.threads)) =
      decide (kind = .accept) := by
  rw [isAccept, Item.token, ofCode_tok]
  simp only [Option.some.injEq]

private theorem Ok.decr_admitted (h : m.Ok) (hpos : 0 < m.admitted) : decr m.admitted + 1 =
    m.admitted := by
  have hslots := cfg.slots_le
  have hroom := h.room
  obtain ⟨n, hn⟩ : ∃ n, m.admitted = n + 1 := ⟨m.admitted - 1, by omega⟩
  rw [hn, Worker.decr_succ (by omega)]

private theorem Ok.gives_back (h : m.Ok) (hx : m.pending[j]? = some x)
    (haccept : isAccept x = false)
    (fds : List ℕ) (hitem : ∀ W : Weights, W.mainItem x = (fds.map W.closed).sum + W.back)
    (hplaces : Weights.places.main m ≤ m.admitted) :
    0 < m.admitted ∧ m.Takes { m with
      pending := m.pending.eraseIdx j, closed := m.closed ++ fds,
      admitted := decr m.admitted } := by
  have hok := h.erase hx haccept
  have hroom := h.room
  have hpos : 0 < m.admitted := by
    have hsum := weight_erase hx Weights.places
    have hone : Weights.places.back = 1 := rfl
    rw [hitem] at hsum
    omega
  have hdecr := h.decr_admitted hpos
  refine ⟨hpos, ⟨hok.known, hok.accepts, ?_⟩, ?_, List.prefix_append _ _⟩
  · show decr m.admitted + m.accepting.toNat ≤ cfg.slots
    omega
  · intro W
    have hsum := weight_erase hx W
    have hmul : (decr m.admitted + 1) * W.back = decr m.admitted * W.back + W.back := by
      rw [Nat.add_mul, Nat.one_mul]
    rw [hdecr] at hmul
    rw [hitem W] at hsum
    simp only [Weights.main, List.map_append, List.sum_append] at hsum ⊢
    omega

theorem Ok.mainCompleted (h : m.Ok) (now : ℕ) {c : Cqe} (hc : m.pending[j]? = some (.done c))
    (answer : Bool) (hplaces : Weights.places.main m ≤ m.admitted) :
    ({ m with pending := m.pending.eraseIdx j } : Main cfg).mainCompleted now c answer =
        .error .harness ∨
      ∃ m', ({ m with pending := m.pending.eraseIdx j } : Main cfg).mainCompleted now c answer =
        .ok m' ∧ m.Takes m' := by
  have hzero : 0 < 2 ^ 32 := Nat.two_pow_pos 32
  have hone : 1 < 2 ^ 32 := by decide
  cases h.known _ (List.mem_of_getElem? hc) with
  | accepted z hz => exact .inr (h.accepted hc hz answer)
  | polled z =>
    have hquiet := h.erase_quiet hc (isAccept_done ..) fun W => by
      rw [Weights.mainItem, ofCode_tok]
    have hsignal : ({ m with
        pending := m.pending.eraseIdx j, signalArmed := false } : Main cfg).Ok :=
      ⟨hquiet.ok.known, hquiet.ok.accepts, hquiet.ok.room⟩
    have htaken : m.Quiet { m with pending := m.pending.eraseIdx j, signalArmed := false } :=
      ⟨hsignal, fun W => (hquiet.weight W).symm ▸ rfl, rfl, rfl⟩
    rw [Main.mainCompleted]
    simp only [ofCode_tok]
    refine .inr ⟨_, rfl, ?_⟩
    split
    · exact htaken.takes
    · split
      · exact (htaken.trans hsignal.stop).takes
      · exact htaken.takes
  | cancelled a z =>
    have hquiet := h.erase_quiet hc (isAccept_done ..) fun W => by
      rw [Weights.mainItem, ofCode_tok]
    rw [Main.mainCompleted]
    simp only [ofCode_tok]
    exact .inr ⟨_, rfl, hquiet.takes⟩
  | handed fd z hfd =>
    have hgen : tokenGen (Kind.told.tok fd 1) = 1 := tokenGen_tok hone ..
    rw [Main.mainCompleted]
    simp only [ofCode_tok, hgen, and_true, tokenSlot_tok hfd]
    split
    · rename_i hneg
      refine .inr ⟨_, rfl, (h.gives_back hc (isAccept_done ..) [fd] ?_ hplaces).2⟩
      intro W
      rw [Weights.mainItem, ofCode_tok, List.map_singleton, List.sum_singleton, ← W.law fd]
      simp only [hgen, and_true, tokenSlot_tok hfd]
      exact if_pos hneg
    · rename_i hneg
      refine .inr ⟨_, rfl, (h.erase_quiet hc (isAccept_done ..) ?_).takes⟩
      intro W
      rw [Weights.mainItem, ofCode_tok]
      exact if_neg fun hboth => hneg hboth.1
  | stopped k z =>
    have hgen : tokenGen (Kind.told.tok k 0) = 0 := tokenGen_tok hzero ..
    have hnot : ∀ z : ℤ, ¬ (z < 0 ∧ tokenGen (Kind.told.tok k 0) = 1) := by
      rintro z ⟨-, hboth⟩
      omega
    rw [Main.mainCompleted]
    simp only [ofCode_tok, if_neg (hnot z)]
    split
    · exact .inl rfl
    · refine .inr ⟨_, rfl, (h.erase_quiet hc (isAccept_done ..) ?_).takes⟩
      intro W
      rw [Weights.mainItem, ofCode_tok]
      exact if_neg (hnot z)
  | freed k =>
    obtain ⟨hpos, htakes⟩ := h.gives_back hc (isAccept_done ..) [] (fun W => by
      rw [Weights.mainItem, ofCode_tok, List.map_nil, List.sum_nil, Nat.zero_add]) hplaces
    rw [Main.mainCompleted]
    simp only [ofCode_tok]
    rw [if_neg (by show ¬ m.admitted = 0; omega)]
    refine .inr ⟨_, rfl, ?_⟩
    rw [List.append_nil] at htakes
    exact htakes

theorem Ok.exchange (h : m.Ok) {x y : Item (MainOp cfg.threads)} (hx : m.pending[j]? = some x)
    (htoken : y.token = x.token) (hy : Known y) :
    ({ m with pending := m.pending.set j y } : Main cfg).Ok := by
  refine ⟨?_, ?_, h.room⟩
  · intro z hz
    rcases List.mem_or_eq_of_mem_set hz with hold | rfl
    · exact h.known z hold
    · exact hy
  · have hset := Lists.countP_set hx y isAccept
    have herase := Lists.countP_eraseIdx hx isAccept
    have hsame : isAccept y = isAccept x := by rw [isAccept, isAccept, htoken]
    show (m.pending.set j y).countP isAccept = m.accepting.toNat
    rw [hset, hsame, ← herase, h.accepts]

theorem weight_exchange (W : Weights) (hx : m.pending[j]? = some x) (y : Item (MainOp cfg.threads))
    :
    W.main { m with pending := m.pending.set j y } + W.mainItem x = W.main m + W.mainItem y := by
  have hsum := sum_map_set hx y W.mainItem
  simp only [Weights.main]
  omega

private theorem Ok.append_freed (h : m.Ok) (k : ℕ) :
    ({ m with pending := m.pending ++ [.done ⟨Kind.freed.tok k 0, 0⟩] } : Main cfg).Ok := by
  refine ⟨?_, ?_, h.room⟩
  · exact List.forall_mem_append.mpr ⟨h.known, List.forall_mem_singleton.mpr (.freed k)⟩
  · show (m.pending ++ [_]).countP isAccept = m.accepting.toNat
    rw [List.countP_append, List.countP_singleton, isAccept_done, h.accepts]
    rfl

private theorem weight_append_freed (W : Weights) (m : Main cfg) (k : ℕ) :
    W.main { m with pending := m.pending ++ [.done ⟨Kind.freed.tok k 0, 0⟩] } =
      W.main m + W.back := by
  have hitem : W.mainItem (.done ⟨Kind.freed.tok k 0, 0⟩ : Item (MainOp cfg.threads)) =
      W.back := by
    rw [Weights.mainItem, ofCode_tok]
  simp only [Weights.main, sum_map_concat, hitem]
  omega

theorem Ok.arm (h : m.Ok) : m.Takes (m.arm now) := by
  have hsignal : ∀ armed : Bool, m.Quiet (if armed then
      ({ m with signalArmed := true } : Main cfg).submit (Kind.signal.tok 0 0) .poll else m) := by
    intro armed
    cases armed with
    | false => exact ⟨h, fun _ => rfl, rfl, rfl⟩
    | true =>
      have harmed : m.Quiet { m with signalArmed := true } :=
        ⟨⟨h.known, h.accepts, h.room⟩, fun _ => rfl, rfl, rfl⟩
      exact harmed.trans (harmed.ok.submit .polling (by decide) fun _ => rfl)
  have haccept : ∀ {m' : Main cfg}, m.Quiet m' → m.Takes
      (if m'.stopping = false ∧ m'.accepting = false ∧ m'.admitted < cfg.slots ∧
          m'.pausedUntil ≤ now then
        ({ m' with accepting := true } : Main cfg).submit (Kind.accept.tok 0 0) .accept
      else m') := by
    intro m' hquiet
    split
    · rename_i hready
      obtain ⟨-, hidle, hless, -⟩ := hready
      refine ⟨⟨?_, ?_, ?_⟩, ?_, ?_⟩
      · exact List.forall_mem_append.mpr ⟨hquiet.ok.known, List.forall_mem_singleton.mpr .accepting⟩
      · show (m'.pending ++ [_]).countP isAccept = 1
        rw [List.countP_append, List.countP_singleton, isAccept_flying, hquiet.ok.accepts, hidle]
        rfl
      · show m'.admitted + 1 ≤ cfg.slots
        omega
      · intro W
        have hsame : W.main { m' with accepting := true } = W.main m' := rfl
        have hitem : W.mainItem (.flying (Kind.accept.tok 0 0) .accept :
            Item (MainOp cfg.threads)) = 0 := rfl
        rw [weight_submit, hitem, hsame, hquiet.weight W, Nat.add_zero]
        show _ = W.main m + m'.admitted * W.back
        rw [hquiet.admitted]
      · show m.closed <+: m'.closed
        rw [hquiet.closed]
    · exact hquiet.takes
  rw [Main.arm]
  have hsplit := hsignal (decide (m.stopping = false ∧ m.signalArmed = false))
  simp only [decide_eq_true_eq] at hsplit
  exact haccept hsplit

end Main

namespace Host

variable {h : Host cfg} {h' : Host cfg} {j token : ℕ} {op : MainOp cfg.threads}
  {k : Fin cfg.threads} {a : Act cfg} {t : Except Fault (Host cfg)} {w : Worker cfg} {m : Main cfg}
  {x y : Item (MainOp cfg.threads)} {fd : ℕ}

/-- What the kernel makes of an operation of the main ring: a descriptor, a completion, or a message
that reaches its thread. -/
inductive MainExecuted (h : Host cfg) (j token : ℕ) : MainOp cfg.threads → Host cfg → Prop where
  | accepted {fd : ℕ} : h.free fd = true → fd < 2 ^ 24 → MainExecuted h j token .accept
    { h with
      main := { h.main with pending := h.main.pending.set j (.done ⟨token, fd⟩) }
      given := h.given ++ [fd]
      talks := Function.update h.talks fd (.new :: h.talks fd) }
  | completed {op : MainOp cfg.threads} {z : ℤ} :
    ((op = .accept ∨ ∃ k t res, op = .message k t res) → z < 0) → MainExecuted h j token op
    { h with main := { h.main with pending := h.main.pending.set j (.done ⟨token, z⟩) } }
  | delivered (k : Fin cfg.threads) (t : ℕ) (res : ℤ) : MainExecuted h j token (.message k t res)
    (({ h with main := { h.main with
        pending := h.main.pending.set j (.done ⟨token, 0⟩) } } : Host cfg).setWorker k
      { h.workers k with pending := (h.workers k).pending ++ [.done ⟨t, res⟩] })

private theorem mainExecuted_of_mainExecute {r : Worker.Result}
    (hexec : h.mainExecute j token op r = some h') : h.MainExecuted j token op h' := by
  rw [Host.mainExecute.eq_def] at hexec
  split at hexec
  · split at hexec
    · rename_i hfree
      obtain rfl := Option.some.inj hexec
      exact .accepted hfree.1 hfree.2
    · cases hexec
  · split at hexec
    · rename_i hz
      obtain rfl := Option.some.inj hexec
      exact .completed fun _ => hz
    · cases hexec
  · obtain rfl := Option.some.inj hexec
    refine .completed ?_
    rintro (hop | ⟨k, t, res, hop⟩) <;> cases hop
  · obtain rfl := Option.some.inj hexec
    refine .completed ?_
    rintro (hop | ⟨k, t, res, hop⟩) <;> cases hop
  · split at hexec
    · rename_i hz
      obtain rfl := Option.some.inj hexec
      exact .completed fun _ => hz
    · split at hexec
      · obtain rfl := Option.some.inj hexec
        exact .delivered ..
      · cases hexec
  · cases hexec

inductive Executed (h : Host cfg) (k : Fin cfg.threads) (j token : ℕ) :
    Op cfg.slots → Host cfg → Prop where
  | slot {op : Op cfg.slots} {w : Worker cfg} {talks : Talks} {res : ℤ} :
    (h.workers k).Executed h.talks op w talks res → Executed h k j token op
      { h.setWorker k { w with pending := w.pending.set j (.done ⟨token, res⟩) } with talks }
  | failed {t : ℕ} {res z : ℤ} : z < 0 → Executed h k j token (.message t res)
    (h.setWorker k { h.workers k with
      pending := (h.workers k).pending.set j (.done ⟨token, z⟩) })
  | told (t : ℕ) (res : ℤ) : Executed h k j token (.message t res)
    (({ h with main := { h.main with
        pending := h.main.pending ++ [.done ⟨t, res⟩] } } : Host cfg).setWorker k
      { h.workers k with pending := (h.workers k).pending.set j (.done ⟨token, 0⟩) })

theorem executed_of_execute {op : Op cfg.slots} {r : Worker.Result}
    (hexec : h.execute k j token op r = some h') : h.Executed k j token op h' := by
  rw [Host.execute.eq_def] at hexec
  split at hexec
  · split at hexec
    · rename_i hz
      obtain rfl := Option.some.inj hexec
      exact .failed hz
    · split at hexec
      · obtain rfl := Option.some.inj hexec
        exact .told ..
      · cases hexec
  · obtain ⟨p, hp, rfl⟩ := Option.map_eq_some_iff.mp hexec
    exact .slot (Worker.executed_of_execute hp)

inductive Stepped (h : Host cfg) : Act cfg → Except Fault (Host cfg) → Prop where
  | arm : Stepped h .arm (.ok { h with main := h.main.arm h.now })
  | mainTake {j : ℕ} {answer : Bool} {c : Cqe} {m : Main cfg} :
    h.main.pending[j]? = some (.done c) →
    ({ h.main with pending := h.main.pending.eraseIdx j } : Main cfg).mainCompleted h.now c answer =
      .ok m → Stepped h (.mainTake j answer) (.ok { h with main := m })
  | mainFails {j : ℕ} {answer : Bool} {c : Cqe} {e : Fault} :
    h.main.pending[j]? = some (.done c) →
    ({ h.main with pending := h.main.pending.eraseIdx j } : Main cfg).mainCompleted h.now c answer =
      .error e → Stepped h (.mainTake j answer) (.error e)
  | mainLeave : Stepped h .mainLeave (.ok { h with main := { h.main with left := true } })
  | expire (k : Fin cfg.threads) :
    Stepped h (.expire k) (.ok (h.setWorker k ((h.workers k).expire k h.now)))
  | take {k : Fin cfg.threads} {j : ℕ} {c : Cqe} {w : Worker cfg} :
    (h.workers k).pending[j]? = some (.done c) →
    ({ h.workers k with pending := (h.workers k).pending.eraseIdx j } : Worker cfg).completed k
      h.now c = .ok w → Stepped h (.take k j) (.ok (h.setWorker k w))
  | fails {k : Fin cfg.threads} {j : ℕ} {c : Cqe} {e : Fault} :
    (h.workers k).pending[j]? = some (.done c) →
    ({ h.workers k with pending := (h.workers k).pending.eraseIdx j } : Worker cfg).completed k
      h.now c = .error e → Stepped h (.take k j) (.error e)
  | leave (k : Fin cfg.threads) :
    Stepped h (.leave k) (.ok (h.setWorker k { h.workers k with left := true }))
  | mainExec {j token : ℕ} {op : MainOp cfg.threads} {r : Worker.Result} {h' : Host cfg} :
    h.main.pending[j]? = some (.flying token op) → h.MainExecuted j token op h' →
    Stepped h (.mainExec j r) (.ok h')
  | exec {k : Fin cfg.threads} {j token : ℕ} {op : Op cfg.slots} {r : Worker.Result}
    {h' : Host cfg} : (h.workers k).pending[j]? = some (.flying token op) →
    h.Executed k j token op h' → Stepped h (.exec k j r) (.ok h')
  | tick (ms : ℕ) : Stepped h (.tick ms) (.ok { h with now := h.now + ms })

theorem stepped_of_step (hstep : h.step a = some t) : h.Stepped a t := by
  rw [Host.step.eq_def] at hstep
  split at hstep
  · split at hstep
    · cases hstep
    · obtain rfl := Option.some.inj hstep
      exact .arm
  · rename_i j answer
    split at hstep
    · rename_i c hc
      split at hstep
      · cases hstep
      · obtain rfl := Option.some.inj hstep
        cases hdone : ({ h.main with pending := h.main.pending.eraseIdx j } :
            Main cfg).mainCompleted h.now c answer with
        | error e => exact .mainFails hc hdone
        | ok m => exact .mainTake hc hdone
    · cases hstep
  · split at hstep
    · obtain rfl := Option.some.inj hstep
      exact .mainLeave
    · cases hstep
  · rename_i k
    split at hstep
    · cases hstep
    · obtain rfl := Option.some.inj hstep
      exact .expire k
  · rename_i k j
    split at hstep
    · rename_i c hc
      split at hstep
      · cases hstep
      · obtain rfl := Option.some.inj hstep
        cases hdone : ({ h.workers k with pending := (h.workers k).pending.eraseIdx j } :
            Worker cfg).completed k h.now c with
        | error e => exact .fails hc hdone
        | ok w => exact .take hc hdone
    · cases hstep
  · rename_i k
    split at hstep
    · obtain rfl := Option.some.inj hstep
      exact .leave k
    · cases hstep
  · split at hstep
    · rename_i hx
      obtain ⟨h', hexec, rfl⟩ := Option.map_eq_some_iff.mp hstep
      exact .mainExec hx (mainExecuted_of_mainExecute hexec)
    · cases hstep
  · split at hstep
    · rename_i hx
      obtain ⟨h', hexec, rfl⟩ := Option.map_eq_some_iff.mp hstep
      exact .exec hx (executed_of_execute hexec)
    · cases hstep
  · obtain rfl := Option.some.inj hstep
    exact .tick _

/-- What holds of the host between the steps of its threads and of the kernel. -/
structure Ok (h : Host cfg) : Prop where
  main : h.main.Ok
  workers : ∀ k, (h.workers k).Ok k h.talks
  weight : ∀ W : Weights,
    W.host h = h.main.admitted * W.back + (h.given.map W.closed).sum
  opened : ∀ fd, h.given.count fd ≤ h.closedCount fd + 1
  talked : ∀ fd, (h.talks fd).length = h.given.count fd
  echoed : ∀ fd, ∀ t ∈ h.talks fd, t.Echoed cfg.capacity
  /-- Nothing went over the socket of an open descriptor that has no slot yet. -/
  fresh : ∀ fd, (∀ k i, ((h.workers k).slots i).fd ≠ some fd) →
    h.given.count fd = h.closedCount fd ∨ (h.talks fd).head? = some .new

private theorem weight_setWorker (W : Weights) (h : Host cfg) (k : Fin cfg.threads)
    (w : Worker cfg) :
    W.host (h.setWorker k w) + W.worker (h.workers k) = W.host h + W.worker w := by
  have hsum := Runs.sum_update W.worker h.workers k w
  simp only [Weights.host, Host.setWorker]
  omega

private theorem workers_setWorker {P : Fin cfg.threads → Worker cfg → Prop} (hw : P k w)
    (hothers : ∀ j ≠ k, P j (h.workers j)) : ∀ j, P j ((h.setWorker k w).workers j) :=
  (Function.forall_update_iff h.workers P).mpr ⟨hw, hothers⟩

private theorem sum_descriptor (l : List ℕ) (fd : ℕ) :
    (l.map (Weights.descriptor fd).closed).sum = l.count fd := by
  induction l with
  | nil => rfl
  | cons x l ih =>
    have hx : (Weights.descriptor fd).closed x = if x == fd then 1 else 0 := by
      rw [Weights.descriptor]
      exact if_congr beq_iff_eq.symm rfl rfl
    rw [List.map_cons, List.sum_cons, ih, hx, List.count_cons, Nat.add_comm]

/-- The places that have a descriptor: on its way to a slot, or in one. -/
def holders (h : Host cfg) (fd : ℕ) : ℕ :=
  (h.main.pending.map (Weights.descriptor fd).mainItem).sum +
    ∑ k, (((h.workers k).pending.map (Weights.descriptor fd).item).sum +
      ∑ i, (Weights.descriptor fd).slot ((h.workers k).slots i))

private theorem count_given (hweight : ∀ W : Weights,
    W.host h = h.main.admitted * W.back + (h.given.map W.closed).sum) (fd : ℕ) :
    h.given.count fd = h.closedCount fd + h.holders fd := by
  have hweight := hweight (.descriptor fd)
  have hback : (Weights.descriptor fd).back = 0 := rfl
  have hworkers : ∑ k, (Weights.descriptor fd).worker (h.workers k) =
      ∑ k, (((h.workers k).pending.map (Weights.descriptor fd).item).sum +
        ∑ i, (Weights.descriptor fd).slot ((h.workers k).slots i)) +
      ∑ k, (h.workers k).closed.count fd := by
    rw [← Finset.sum_add_distrib]
    refine Finset.sum_congr rfl fun k _ => ?_
    rw [Weights.worker, sum_descriptor]
  rw [Weights.host, Weights.main, sum_descriptor, sum_descriptor, hworkers, hback] at hweight
  rw [closedCount, holders]
  omega

private theorem Ok.given_eq (H : h.Ok) (fd : ℕ) :
    h.given.count fd = h.closedCount fd + h.holders fd := count_given H.weight fd

private theorem Ok.holders_le (H : h.Ok) (fd : ℕ) : h.holders fd ≤ 1 := by
  have hgiven := H.given_eq fd
  have hopened := H.opened fd
  omega

/-- A descriptor that leaves its slot is closed, so that `fresh` is kept where it was so of it. -/
theorem Ok.fresh_kept (H : h.Ok) (hgiven : h'.given = h.given)
    (hweight : ∀ W : Weights,
      W.host h' = h'.main.admitted * W.back + (h'.given.map W.closed).sum)
    (hclosed : ∀ fd, h.closedCount fd ≤ h'.closedCount fd)
    (hslots : ∀ k i fd, ((h.workers k).slots i).fd = some fd →
      ((h'.workers k).slots i).fd = some fd ∨ h.closedCount fd < h'.closedCount fd)
    (htalks : ∀ fd, (∀ k i, ((h.workers k).slots i).fd ≠ some fd) → h'.talks fd = h.talks fd)
    (fd : ℕ) (hnone : ∀ k i, ((h'.workers k).slots i).fd ≠ some fd) :
    h'.given.count fd = h'.closedCount fd ∨ (h'.talks fd).head? = some .new := by
  have hcount := count_given hweight fd
  have hopened := H.opened fd
  have hle := hclosed fd
  rw [hgiven] at hcount ⊢
  by_cases hslot : ∃ k i, ((h.workers k).slots i).fd = some fd
  · obtain ⟨k, i, hfd⟩ := hslot
    rcases hslots k i fd hfd with hkept | hlt
    · exact absurd hkept (hnone k i)
    · exact .inl (by omega)
  · have hnowhere : ∀ k i, ((h.workers k).slots i).fd ≠ some fd :=
      fun k i hfd => hslot ⟨k, i, hfd⟩
    rcases H.fresh fd hnowhere with hfree | hnew
    · exact .inl (by omega)
    · exact .inr (by rw [htalks fd hnowhere]; exact hnew)

theorem Ok.move (H : h.Ok) (hm : m.Ok) {talks : Talks} (hw : w.Ok k talks)
    (hothers : ∀ j ≠ k, (h.workers j).Ok j talks) (hadmitted : m.admitted = h.main.admitted)
    (hmain : m.closed = h.main.closed) (hkeeps : Worker.Keeps (h.workers k) w)
    (hweight : ∀ W : Weights, W.main m + W.worker w = W.main h.main + W.worker (h.workers k))
    (htalked : ∀ fd, (talks fd).length = (h.talks fd).length)
    (hechoed : ∀ fd, ∀ t ∈ talks fd, t.Echoed cfg.capacity)
    (htalks : ∀ fd, (∀ k i, ((h.workers k).slots i).fd ≠ some fd) → talks fd = h.talks fd) :
    ({ ({ h with main := m } : Host cfg).setWorker k w with talks } : Host cfg).Ok := by
  have hcount : ∀ fd, h.closedCount fd + w.closed.count fd =
      (({ h with main := m } : Host cfg).setWorker k w).closedCount fd +
        (h.workers k).closed.count fd := by
    intro fd
    have hsum := Runs.sum_update (fun w : Worker cfg => w.closed.count fd) h.workers k w
    simp only [Host.closedCount, Host.setWorker, hmain] at hsum ⊢
    omega
  have hclosed : ∀ fd, h.closedCount fd ≤
      (({ h with main := m } : Host cfg).setWorker k w).closedCount fd := by
    intro fd
    have hle := hkeeps.closed.sublist.count_le fd
    have hsum := hcount fd
    omega
  have hmoved : ∀ W : Weights, W.host (({ h with main := m } : Host cfg).setWorker k w) =
      m.admitted * W.back + (h.given.map W.closed).sum := by
    intro W
    have hset := weight_setWorker W { h with main := m } k w
    have hbefore := H.weight W
    have hmoved := hweight W
    rw [hadmitted]
    simp only [Weights.host] at hset hbefore ⊢
    omega
  refine ⟨hm, workers_setWorker (P := fun k w => w.Ok k talks) hw hothers, hmoved, ?_,
    fun fd => (htalked fd).trans (H.talked fd), hechoed,
    H.fresh_kept rfl hmoved hclosed ?_ htalks⟩
  · intro fd
    have hopened := H.opened fd
    have hle := hclosed fd
    exact hopened.trans (Nat.add_le_add_right hle 1)
  · have hslots := workers_setWorker (h := h) (k := k) (w := w)
      (P := fun j w' => ∀ i fd, ((h.workers j).slots i).fd = some fd → (w'.slots i).fd = some fd ∨
        h.closedCount fd < (({ h with main := m } : Host cfg).setWorker k w).closedCount fd)
    refine hslots ?_ fun j _ i fd hfd => .inl hfd
    intro i fd hfd
    have hsum := hcount fd
    rcases hkeeps.slots i fd hfd with hkept | hlt
    · exact .inl hkept
    · exact .inr (by omega)

theorem Ok.still (H : h.Ok) (hm : m.Ok) (hw : w.Ok k h.talks)
    (hadmitted : m.admitted = h.main.admitted) (hmain : m.closed = h.main.closed)
    (hkeeps : Worker.Keeps (h.workers k) w)
    (hweight : ∀ W : Weights, W.main m + W.worker w = W.main h.main + W.worker (h.workers k)) :
    (({ h with main := m } : Host cfg).setWorker k w).Ok :=
  H.move hm hw (fun j _ => H.workers j) hadmitted hmain hkeeps hweight (fun _ => rfl) H.echoed
    fun _ _ => rfl

theorem Ok.setWorker (H : h.Ok) (hw : w.Ok k h.talks) (hsame : Worker.Same (h.workers k) w) :
    (h.setWorker k w).Ok :=
  H.still H.main hw rfl rfl hsame.keeps fun W => by rw [hsame.weight W]

theorem Ok.setMain (H : h.Ok) (htakes : h.main.Takes m) : ({ h with main := m } : Host cfg).Ok := by
  have hclosed : ∀ fd, h.closedCount fd ≤ ({ h with main := m } : Host cfg).closedCount fd :=
    fun fd => Nat.add_le_add_right (htakes.closed.sublist.count_le fd) _
  have hmoved : ∀ W : Weights, W.host { h with main := m } =
      m.admitted * W.back + (h.given.map W.closed).sum := by
    intro W
    have hweight := H.weight W
    have htaken := htakes.weight W
    simp only [Weights.host] at hweight ⊢
    omega
  refine ⟨htakes.ok, H.workers, hmoved, ?_, H.talked, H.echoed,
    H.fresh_kept rfl hmoved hclosed (fun k i fd hfd => .inl hfd) fun _ _ => rfl⟩
  intro fd
  exact (H.opened fd).trans (Nat.add_le_add_right (hclosed fd) 1)

private theorem Ok.places_le (H : h.Ok) : Weights.places.host h = h.main.admitted := by
  have hweight := H.weight Weights.places
  have hzero : (h.given.map Weights.places.closed).sum = 0 :=
    List.sum_eq_zero fun x hx => by
      obtain ⟨-, -, rfl⟩ := List.mem_map.mp hx
      rfl
  rw [hzero] at hweight
  rw [hweight]
  exact Nat.mul_one _

private theorem Ok.worker_le (H : h.Ok) (k : Fin cfg.threads) :
    Weights.places.worker (h.workers k) ≤ cfg.slots := by
  have hplaces := H.places_le
  have hroom := H.main.room
  have hle : Weights.places.worker (h.workers k) ≤
      ∑ k, Weights.places.worker (h.workers k) :=
    Finset.single_le_sum (f := fun k => Weights.places.worker (h.workers k))
      (fun _ _ => Nat.zero_le _) (Finset.mem_univ k)
  rw [Weights.host] at hplaces
  omega

private theorem Ok.main_exchange (H : h.Ok) {j : ℕ} (hx : h.main.pending[j]? = some x)
    (htoken : y.token = x.token) (hy : Main.Known y)
    (hitem : ∀ W : Weights, W.mainItem y = W.mainItem x) :
    ({ h with main := { h.main with pending := h.main.pending.set j y } } : Host cfg).Ok := by
  refine H.setMain ⟨H.main.exchange hx htoken hy, ?_, List.prefix_rfl⟩
  intro W
  have hmoved := Main.weight_exchange W hx y
  rw [hitem W] at hmoved
  exact congrArg (· + h.main.admitted * W.back) (Nat.add_right_cancel hmoved)

private theorem holders_eq (h : Host cfg) (fd : ℕ) : h.holders fd =
    (h.main.pending.map (Weights.descriptor fd).mainItem).sum +
      ∑ k, ((h.workers k).pending.map (Weights.descriptor fd).item).sum +
      ∑ p : Fin cfg.threads × Fin cfg.slots,
        (Weights.descriptor fd).slot ((h.workers p.1).slots p.2) := by
  rw [holders, Finset.sum_add_distrib, Fintype.sum_prod_type, Nat.add_assoc]

private theorem slot_weight {s : Slot} (hfd : s.fd = some fd) : (Weights.descriptor fd).slot s =
    1 := by
  rw [Weights.slot, hfd]
  exact if_pos rfl

private theorem slots_pos {i : Fin cfg.slots} (hslot : ((h.workers k).slots i).fd = some fd) :
    1 ≤ ∑ p : Fin cfg.threads × Fin cfg.slots,
      (Weights.descriptor fd).slot ((h.workers p.1).slots p.2) :=
  (slot_weight hslot).symm.le.trans (Finset.single_le_sum
    (f := fun p : Fin cfg.threads × Fin cfg.slots =>
      (Weights.descriptor fd).slot ((h.workers p.1).slots p.2))
    (fun _ _ => Nat.zero_le _) (Finset.mem_univ (k, i)))

private theorem Ok.slot_unique (H : h.Ok) {k k' : Fin cfg.threads} {i i' : Fin cfg.slots}
    (hslot : ((h.workers k).slots i).fd = some fd) (hslot' : ((h.workers k').slots i').fd = some fd)
    :
    (k, i) = (k', i') := by
  by_contra hne
  have hpair := Finset.add_le_sum
    (f := fun p : Fin cfg.threads × Fin cfg.slots =>
      (Weights.descriptor fd).slot ((h.workers p.1).slots p.2))
    (fun p _ => Nat.zero_le _) (Finset.mem_univ (k, i)) (Finset.mem_univ (k', i')) hne
  have hle := H.holders_le fd
  have hk := slot_weight hslot
  have hk' := slot_weight hslot'
  rw [holders_eq] at hle
  dsimp only at hpair
  omega

theorem Ok.slot_holds (H : h.Ok) {i : Fin cfg.slots} (hslot : ((h.workers k).slots i).fd = some fd)
    :
    h.given.count fd = h.closedCount fd + 1 := by
  have hgiven := H.given_eq fd
  have hle := H.holders_le fd
  have hpos := slots_pos hslot
  rw [holders_eq] at hgiven hle
  omega

/-- A descriptor that is handed over is open and in no slot: nothing went over its socket. -/
theorem Ok.handed_new (H : h.Ok) {j fd : ℕ}
    (hx : (h.workers k).pending[j]? = some (.done ⟨Kind.handed.tok 0 0, fd⟩)) :
    (h.talks fd).head? = some .new := by
  have hitem : (Weights.descriptor fd).item
      (.done ⟨Kind.handed.tok 0 0, fd⟩ : Item (Op cfg.slots)) = 1 := by
    rw [Weights.item, ofCode_tok]
    exact if_pos rfl
  have hring := sum_map_eraseIdx hx (Weights.descriptor fd).item
  have hrings : ((h.workers k).pending.map (Weights.descriptor fd).item).sum ≤
      ∑ k, ((h.workers k).pending.map (Weights.descriptor fd).item).sum :=
    Finset.single_le_sum (f := fun k => ((h.workers k).pending.map (Weights.descriptor fd).item).sum)
      (fun _ _ => Nat.zero_le _) (Finset.mem_univ k)
  have hgiven := H.given_eq fd
  have hle := H.holders_le fd
  rw [holders_eq] at hgiven hle
  rw [hitem] at hring
  refine (H.fresh fd ?_).resolve_left (by omega)
  intro k' i hslot
  have hpos := slots_pos hslot
  omega

/-- A descriptor that is free is in no slot. -/
theorem Ok.slot_ne_of_free (H : h.Ok) (hfree : h.given.count fd = h.closedCount fd)
    (k : Fin cfg.threads) (i : Fin cfg.slots) : ((h.workers k).slots i).fd ≠ some fd := by
  intro hslot
  have hgiven := H.given_eq fd
  have hpos := slots_pos hslot
  rw [holders_eq] at hgiven
  omega

theorem Ok.accepts (H : h.Ok) {j fd : ℕ}
    (hx : h.main.pending[j]? = some (.flying (Kind.accept.tok 0 0) .accept))
    (hfree : h.given.count fd = h.closedCount fd) (hfd : fd < 2 ^ 24) :
    ({ h with
      main := { h.main with
        pending := h.main.pending.set j (.done ⟨Kind.accept.tok 0 0, fd⟩) }
      given := h.given ++ [fd]
      talks := Function.update h.talks fd (.new :: h.talks fd) } : Host cfg).Ok where
  main := H.main.exchange hx rfl (.accepted fd (by omega))
  workers := by
    intro k
    refine (H.workers k).of_talks fun i => ?_
    exact Slot.talk_update_ne (H.slot_ne_of_free hfree k i) _
  talked := by
    intro x
    have htalked := H.talked x
    show (Function.update h.talks fd (.new :: h.talks fd) x).length = (h.given ++ [fd]).count x
    rw [List.count_append, List.count_singleton]
    by_cases hxfd : x = fd
    · rw [hxfd, Function.update_self, List.length_cons, beq_self_eq_true, if_pos rfl, ← hxfd,
        htalked]
    · rw [Function.update_of_ne hxfd, htalked, if_neg fun heq => hxfd (beq_iff_eq.mp heq).symm,
        Nat.add_zero]
  echoed := by
    intro x t ht
    change t ∈ Function.update h.talks fd (.new :: h.talks fd) x at ht
    by_cases hxfd : x = fd
    · rw [hxfd, Function.update_self] at ht
      rcases List.mem_cons.mp ht with rfl | hold
      · exact ⟨[], rfl, Nat.zero_le _⟩
      · exact H.echoed fd t hold
    · rw [Function.update_of_ne hxfd] at ht
      exact H.echoed x t ht
  fresh := by
    intro x hnone
    show (h.given ++ [fd]).count x = h.closedCount x ∨
      (Function.update h.talks fd (.new :: h.talks fd) x).head? = some .new
    by_cases hxfd : x = fd
    · refine .inr ?_
      rw [hxfd, Function.update_self, List.head?_cons]
    · rw [Function.update_of_ne hxfd, List.count_append, List.count_singleton,
        if_neg fun heq => hxfd (beq_iff_eq.mp heq).symm]
      exact H.fresh x hnone
  weight := by
    intro W
    have hmoved := Main.weight_exchange W hx (.done ⟨Kind.accept.tok 0 0, fd⟩)
    have hweight := H.weight W
    have hflying : W.mainItem (.flying (Kind.accept.tok 0 0) .accept :
        Item (MainOp cfg.threads)) = 0 := rfl
    have hdone : W.mainItem (.done ⟨Kind.accept.tok 0 0, fd⟩ : Item (MainOp cfg.threads)) =
        W.closed fd := by
      rw [Weights.mainItem, ofCode_tok]
      exact if_pos (Int.natCast_nonneg fd)
    simp only [Weights.host, sum_map_concat] at hweight ⊢
    omega
  opened := by
    intro x
    have hopened := H.opened x
    show (h.given ++ [fd]).count x ≤ h.closedCount x + 1
    rw [List.count_append, List.count_singleton]
    split
    · rename_i heq
      obtain rfl : fd = x := beq_iff_eq.mp heq
      omega
    · omega

theorem Ok.delivers (H : h.Ok) {j : ℕ} {z : Item (Op cfg.slots)} (hx : h.main.pending[j]? = some x)
    (htoken : y.token = x.token) (hy : Main.Known y) (hz : Other k z)
    (hitem : ∀ W : Weights, W.mainItem x = W.mainItem y + W.item z) :
    (({ h with main := { h.main with pending := h.main.pending.set j y } } : Host cfg).setWorker k
      { h.workers k with pending := (h.workers k).pending ++ [z] }).Ok := by
  refine H.still (H.main.exchange hx htoken hy) ((H.workers k).append hz) rfl rfl
    (.of_eq (fun _ => rfl) rfl) ?_
  intro W
  have hmoved := Main.weight_exchange W hx y
  have happend := Worker.weight_append W (h.workers k) z
  have hsum := hitem W
  dsimp only at hmoved happend ⊢
  omega

theorem Ok.mainExecute (H : h.Ok) (hx : h.main.pending[j]? = some (.flying token op))
    (hexec : h.MainExecuted j token op h') : h'.Ok := by
  have hknown := H.main.known _ (List.mem_of_getElem? hx)
  have hgen : ∀ slot {gen : ℕ}, gen < 2 → tokenGen (Kind.told.tok slot gen) = gen :=
    fun slot gen hgen => tokenGen_tok (by omega) ..
  cases hknown with
  | accepting =>
    cases hexec with
    | accepted hfree hfd => exact H.accepts hx (of_decide_eq_true hfree) hfd
    | @completed _ z hz =>
      have hneg : z < 0 := hz (.inl rfl)
      refine H.main_exchange hx rfl (.accepted z (by omega)) ?_
      intro W
      refine Eq.trans ?_ (rfl : 0 = W.mainItem (.flying (Kind.accept.tok 0 0) .accept))
      rw [Weights.mainItem, ofCode_tok]
      exact if_neg (not_le.mpr hneg)
  | polling =>
    cases hexec with
    | @completed _ z _ =>
      refine H.main_exchange hx rfl (.polled z) ?_
      intro W
      refine Eq.trans ?_ (rfl : 0 = W.mainItem (.flying (Kind.signal.tok 0 0) .poll))
      rw [Weights.mainItem, ofCode_tok]
  | cancelling a t =>
    cases hexec with
    | @completed _ z _ =>
      refine H.main_exchange hx rfl (.cancelled a z) ?_
      intro W
      refine Eq.trans ?_ (rfl : 0 = W.mainItem (.flying (Kind.cancel.tok a 0) (.cancel t)))
      rw [Weights.mainItem, ofCode_tok]
  | handing fd k hfd =>
    have hitem : ∀ W : Weights, W.mainItem (.flying (Kind.told.tok fd 1)
        (.message k (Kind.handed.tok 0 0) fd) : Item (MainOp cfg.threads)) = W.held fd := by
      intro W
      rw [Weights.mainItem, ofCode_tok, if_pos rfl]
      rfl
    cases hexec with
    | @completed _ z hz =>
      refine H.main_exchange hx rfl (.handed fd z hfd) ?_
      intro W
      rw [hitem W, Weights.mainItem, ofCode_tok]
      simp only [hgen fd (by decide : 1 < 2), and_true, tokenSlot_tok hfd]
      exact if_pos (hz (.inr ⟨k, _, _, rfl⟩))
    | delivered =>
      refine H.delivers hx rfl (.handed fd 0 hfd) (.handed fd) ?_
      intro W
      rw [hitem W, Weights.mainItem, Weights.item, ofCode_tok, ofCode_tok]
      exact (Nat.zero_add _).symm
  | stopping k =>
    have hitem : ∀ W : Weights, W.mainItem (.flying (Kind.told.tok k 0)
        (.message k (Kind.stop.tok 0 0) 0) : Item (MainOp cfg.threads)) = 0 := by
      intro W
      rw [Weights.mainItem, ofCode_tok]
      rfl
    cases hexec with
    | @completed _ z _ =>
      refine H.main_exchange hx rfl (.stopped k z) ?_
      intro W
      rw [hitem W, Weights.mainItem, ofCode_tok]
      refine if_neg ?_
      rintro ⟨-, hone⟩
      have hzero := hgen k (by decide : 0 < 2)
      dsimp only at hone
      omega
    | delivered =>
      refine H.delivers hx rfl (.stopped k 0) .stop ?_
      intro W
      rw [hitem W, Weights.mainItem, Weights.item, ofCode_tok, ofCode_tok]
      rfl

theorem Ok.telling (H : h.Ok) {j token t : ℕ} {res : ℤ}
    (hx : (h.workers k).pending[j]? = some (.flying token (.message t res))) :
    Other (k : ℕ) (.flying token (.message t res) : Item (Op cfg.slots)) := by
  rcases (H.workers k).known _ (List.mem_of_getElem? hx) with ⟨i, hi⟩ | hother
  · have hmem : Item.flying token (.message t res) ∈ slotItems i (h.workers k).pending :=
      List.mem_filter.mpr ⟨List.mem_of_getElem? hx, hi⟩
    rcases ((H.workers k).slot i trivial).mem hmem with D | C
    · cases D
    · cases C
  · exact hother

theorem Ok.execute (H : h.Ok) {op : Op cfg.slots}
    (hx : (h.workers k).pending[j]? = some (.flying token op)) (hexec : h.Executed k j token op h')
    :
    h'.Ok := by
  have hexchange : ∀ {i : Fin cfg.slots}, token = Kind.told.tok i 0 →
      op = .message (Kind.freed.tok k 0) 0 → ∀ (z : ℤ) (W : Weights),
      W.worker { h.workers k with pending := (h.workers k).pending.set j (.done ⟨token, z⟩) } +
        W.back = W.worker (h.workers k) + if z < 0 then W.back else 0 := by
    rintro i rfl rfl z W
    refine (Worker.weight_exchange W hx (.done ⟨Kind.told.tok i 0, z⟩)).trans ?_
    rw [Weights.item, ofCode_tok]
  cases hexec with
  | @slot _ w talks res hslot =>
    have hone : ∀ i j x, ((h.workers k).slots i).fd = some x →
        ((h.workers k).slots j).fd = some x → j = i :=
      fun i j x hi hj => (Prod.mk.inj (H.slot_unique hj hi)).2
    have hsame := (H.workers k).same_execute hx hslot
    obtain ⟨hok, hcase⟩ := (H.workers k).execute hone hx hslot
    rcases hcase with rfl | ⟨i, x, t, t', earlier, hfd, hx', rfl, hecho⟩
    · exact H.setWorker hok hsame
    · refine H.move H.main hok (fun m hm => (H.workers m).of_talks fun l => ?_) rfl rfl hsame.keeps
        (fun W => by rw [hsame.weight W]) ?_ ?_ ?_
      · refine Slot.talk_update_ne (fun hother => hm ?_) _
        exact (Prod.mk.inj (H.slot_unique hother hfd)).1
      · intro y
        by_cases hy : y = x
        · rw [hy, Function.update_self, hx', List.length_cons, List.length_cons]
        · rw [Function.update_of_ne hy]
      · intro y u hu
        by_cases hy : y = x
        · rw [hy, Function.update_self] at hu
          rcases List.mem_cons.mp hu with rfl | hold
          · exact hecho
          · exact H.echoed x u (hx'.symm ▸ List.mem_cons_of_mem _ hold)
        · rw [Function.update_of_ne hy] at hu
          exact H.echoed y u hu
      · intro y hnone
        refine Function.update_of_ne ?_ ..
        rintro rfl
        exact hnone k i hfd
  | @failed _ _ z hz =>
    cases H.telling hx with
    | telling i =>
      refine H.setWorker ((H.workers k).exchange_other hx (.telling i) (.told i z))
        ⟨?_, .of_eq (fun _ => rfl) rfl⟩
      intro W
      have hmoved := hexchange rfl rfl z W
      rw [if_pos hz] at hmoved
      exact Nat.add_right_cancel hmoved
  | told =>
    cases H.telling hx with
    | telling i =>
      refine H.still (H.main.append_freed k)
        ((H.workers k).exchange_other hx (.telling i) (.told i 0)) rfl rfl
        (.of_eq (fun _ => rfl) rfl) ?_
      intro W
      have hmoved := hexchange rfl rfl 0 W
      have hmain := Main.weight_append_freed W h.main k
      rw [if_neg (lt_irrefl 0), Nat.add_zero] at hmoved
      dsimp only at hmoved hmain ⊢
      omega

def Good : Except Fault (Host cfg) → Prop
  | .ok h => h.Ok
  | .error e => e = .harness

theorem ok_initial : (initial : Host cfg).Ok where
  main := ⟨fun x hx => absurd hx List.not_mem_nil, rfl, Nat.zero_le _⟩
  workers := by
    intro k
    have hlength : (List.replicate cfg.capacity (0 : UInt8)).length = cfg.capacity :=
      List.length_replicate
    refine ⟨fun j => ⟨hlength, hlength, Nat.two_pow_pos 32⟩, fun j _ => .free rfl rfl rfl rfl,
      fun x hx => absurd hx List.not_mem_nil, ?_⟩
    exact (Finset.sum_eq_zero fun j _ => rfl).symm
  weight := by
    intro W
    have hworker : ∀ k : Fin cfg.threads, W.worker (Worker.initial : Worker cfg) = 0 := by
      intro k
      have hslots : ∑ j : Fin cfg.slots, W.slot (.initial cfg.capacity) = 0 :=
        Finset.sum_eq_zero fun j _ => rfl
      show 0 + ∑ j : Fin cfg.slots, W.slot (.initial cfg.capacity) + 0 = 0
      rw [hslots]
    show 0 + ∑ k : Fin cfg.threads, W.worker (Worker.initial : Worker cfg) = 0 * W.back + 0
    rw [Finset.sum_eq_zero fun k _ => hworker k, Nat.zero_mul]
  opened _ := Nat.zero_le _
  talked _ := rfl
  echoed fd t ht := absurd ht List.not_mem_nil
  fresh fd _ := by
    refine .inl ?_
    show 0 = 0 + ∑ k : Fin cfg.threads, 0
    rw [Finset.sum_const_zero, Nat.add_zero]

theorem Ok.step (H : h.Ok) (hstep : h.Stepped a t) : Good t := by
  have hmain : ∀ {j : ℕ} {c : Cqe} (answer : Bool), h.main.pending[j]? = some (.done c) → _ :=
    fun answer hc => H.main.mainCompleted h.now hc answer
      ((Nat.le_add_right _ _).trans_eq H.places_le)
  have hworker : ∀ {k : Fin cfg.threads} {j : ℕ} {c : Cqe},
      (h.workers k).pending[j]? = some (.done c) → _ := fun {k} _ _ hc =>
    (H.workers k).completed h.now hc fun fd heq =>
      ⟨(H.workers k).exists_free (heq ▸ hc) (H.worker_le k), H.handed_new (heq ▸ hc)⟩
  cases hstep with
  | arm => exact H.setMain H.main.arm
  | @mainTake j answer c m hc hdone =>
    rcases hmain answer hc with hfail | ⟨m', hok, htakes⟩
    · rw [hfail] at hdone
      cases hdone
    · obtain rfl := Except.ok.inj (hok.symm.trans hdone)
      exact H.setMain htakes
  | @mainFails j answer c e hc hdone =>
    rcases hmain answer hc with hfail | ⟨m', hok, -⟩
    · exact (Except.error.inj (hfail.symm.trans hdone)).symm
    · rw [hok] at hdone
      cases hdone
  | mainLeave =>
    exact H.setMain ⟨⟨H.main.known, H.main.accepts, H.main.room⟩, fun _ => rfl, List.prefix_rfl⟩
  | expire k => exact H.setWorker (H.workers k).expire (Worker.grows_expire k h.now _).same
  | take hc hdone =>
    rcases hworker hc with hfail | ⟨w', hok, hw⟩
    · rw [hfail] at hdone
      cases hdone
    · obtain rfl := Except.ok.inj (hok.symm.trans hdone)
      exact H.setWorker hw (Worker.same_completed hc hdone)
  | fails hc hdone =>
    rcases hworker hc with hfail | ⟨w', hok, -⟩
    · exact (Except.error.inj (hfail.symm.trans hdone)).symm
    · rw [hok] at hdone
      cases hdone
  | leave k =>
    have hw := H.workers k
    exact H.setWorker ⟨hw.sized, hw.slot, hw.known, hw.held⟩
      ⟨fun _ => rfl, .of_eq (fun _ => rfl) rfl⟩
  | mainExec hx hexec => exact H.mainExecute hx hexec
  | exec hx hexec => exact H.execute hx hexec
  | tick ms => exact ⟨H.main, H.workers, H.weight, H.opened, H.talked, H.echoed, H.fresh⟩

private theorem good_next {s t : Except Fault (Host cfg)} (hs : Good s)
    (hstep : next s a = some t) :
    Good t := by
  cases s with
  | error e => cases hstep
  | ok h => exact Ok.step hs (stepped_of_step hstep)

theorem good_run {acts : List (Act cfg)} (hrun : run next (.ok initial) acts = some t) :
    Good t := by
  have hinitial : Good (.ok (initial : Host cfg)) := ok_initial
  exact invariant_of_step good_next hinitial hrun

private theorem Ok.held_le (H : h.Ok) : ∑ k, (h.workers k).held ≤ h.main.admitted := by
  have hplaces := H.places_le
  have hworker : ∀ k, (h.workers k).held ≤ Weights.places.worker (h.workers k) := by
    intro k
    have hslots : ∑ i, ((h.workers k).slots i).holds =
        ∑ i, Weights.places.slot ((h.workers k).slots i) := by
      refine Finset.sum_congr rfl fun i _ => ?_
      rw [Slot.holds, Weights.slot]
      cases ((h.workers k).slots i).fd with
      | none => rfl
      | some fd => rfl
    rw [(H.workers k).held, hslots, Weights.worker]
    omega
  have hsum := Finset.sum_le_sum fun k (_ : k ∈ Finset.univ) => hworker k
  rw [Weights.host] at hplaces
  omega

end Host

/-- The descriptor an operation of a slot is on. -/
def Op.fd {slots : ℕ} : Op slots → Option ℕ
  | .recv fd _ _ | .send fd _ _ _ | .cancelFd fd => fd
  | .message _ _ => none

/-- A slot counts what its ring has pending for it: operations on its descriptor, all of its
generation, one at least where it has a connection. -/
structure Counted (s : Slot) (items : List (Item (Op cfg.slots))) : Prop where
  ops : s.ops = items.length
  gen : ∀ x ∈ items, tokenGen x.token = s.gen
  fd : ∀ token op, .flying token op ∈ items → op.fd = s.fd
  waits : s.fd = none ∧ s.ops = 0 ∨ s.fd.isSome = true ∧ 0 < s.ops

theorem SlotOk.counted {s : Slot} {t : Talk} {i : Fin cfg.slots}
    {items : List (Item (Op cfg.slots))} (O : SlotOk i s t items) (hgen : s.gen < 2 ^ 32) :
    Counted s items := by
  refine ⟨?_, ?_, ?_, ?_⟩
  · cases O with
    | free _ hops _ hitems | serving x _ hops _ hitems => rw [hops, hitems]; rfl
    | closingBoth x c _ hops _ hperm => rw [hops, hperm.length_eq]; rfl
    | closingData x _ hops _ hitems | closingCancel c _ hops _ hitems => rw [hops, hitems]; rfl
  · intro x hx
    rcases O.mem hx with D | C
    · cases D <;> exact tokenGen_tok hgen ..
    · cases C <;> exact tokenGen_tok hgen ..
  · intro token op hx
    rcases O.mem hx with D | C
    · cases D with
      | receiving => rfl
      | sending => rfl
    · cases C with
      | cancelling => rfl
  · cases O with
    | free hfd hops _ _ => exact .inl ⟨hfd, hops⟩
    | serving x hfd hops _ _ _ | closingBoth x c hfd hops _ _ _ _
    | closingData x hfd hops _ _ _ | closingCancel c hfd hops _ _ _ => exact .inr ⟨hfd, by omega⟩

variable {acts : List (Host.Act cfg)} {t : Except Fault (Host cfg)}

/-- However the threads, the kernel and the clock take turns, the host ends only where the system
fails it. Until then each slot counts what its ring has pending for it, and what went out over the
socket of every connection, past or present, is what came in, but for what a buffer holds. -/
theorem slots_echo_their_connections (hrun : run Host.next (.ok .initial) acts = some t) :
    t = .error .harness ∨ ∃ h : Host cfg, t = .ok h ∧
      (∀ k i, Counted ((h.workers k).slots i) (slotItems i (h.workers k).pending)) ∧
      ∀ fd, (h.talks fd).length = h.given.count fd ∧
        ∀ talk ∈ h.talks fd, talk.Echoed cfg.capacity := by
  have hgood := Host.good_run hrun
  cases t with
  | error e => exact .inl (congrArg Except.error hgood)
  | ok h =>
    have H : h.Ok := hgood
    refine .inr ⟨h, rfl, fun k i => ?_, fun fd => ⟨H.talked fd, H.echoed fd⟩⟩
    exact ((H.workers k).slot i trivial).counted ((H.workers k).sized i).gen

def single : Config := ⟨1, 1, 4, 2, 1000, 0, by decide, by decide, by decide, by decide⟩

def single.thread : Fin single.threads := ⟨0, by decide⟩

def single.slot : Fin single.slots := ⟨0, by decide⟩

/-- A connection is accepted, handed over, sends three octets and gets them back in two sends. -/
def exchanged : List (Host.Act single) :=
  [.arm, .mainExec 1 (.count 7), .mainTake 1 true, .mainExec 1 (.code 0), .take single.thread 0,
    .exec single.thread 0 (.octets [1, 2, 3]), .take single.thread 0,
    .exec single.thread 0 (.count 2), .take single.thread 0,
    .exec single.thread 0 (.count 1), .take single.thread 0]

theorem slots_echo_their_connections_exchanged : ∃ h : Host single,
    run Host.next (.ok .initial) exchanged = some (.ok h) ∧ h.talks 7 = [⟨[1, 2, 3], [1, 2, 3]⟩] ∧
    (∀ talk ∈ h.talks 7, talk.Echoed single.capacity) ∧
    ∀ k i, Counted ((h.workers k).slots i) (slotItems i (h.workers k).pending) := by
  have hends : ((run Host.next (.ok .initial) exchanged).map fun t => match t with
      | .ok h => some (h.talks 7)
      | .error _ => none) = some (some [⟨[1, 2, 3], [1, 2, 3]⟩]) := by decide +kernel
  obtain ⟨t, hrun, htalk⟩ := Option.map_eq_some_iff.mp hends
  rcases slots_echo_their_connections hrun with rfl | ⟨h, rfl, hslots, hechoed⟩
  · cases htalk
  · exact ⟨h, hrun, Option.some.inj htalk, (hechoed 7).2, hslots⟩

/-- The connections admitted never outnumber the slots of one thread, so each finds one free; a
descriptor is in one slot at most, is open while it is there, and is never closed twice. -/
theorem descriptors_have_one_owner (hrun : run Host.next (.ok .initial) acts = some t)
    {h : Host cfg} (ht : t = .ok h) :
    ∑ k, (h.workers k).held ≤ h.main.admitted ∧ h.main.admitted ≤ cfg.slots ∧
    (∀ fd, h.given.count fd = h.closedCount fd + h.holders fd ∧ h.holders fd ≤ 1) ∧
    (∀ fd k i, ((h.workers k).slots i).fd = some fd →
      h.given.count fd = h.closedCount fd + 1 ∧
      ∀ k' i', ((h.workers k').slots i').fd = some fd → (k, i) = (k', i')) ∧
    ∀ k (fd : ℕ), .done ⟨Kind.handed.tok 0 0, fd⟩ ∈ (h.workers k).pending →
      ∃ i, Worker.isFree ((h.workers k).slots i) = true := by
  have hgood := Host.good_run hrun
  subst ht
  have H : h.Ok := hgood
  have hroom := H.main.room
  refine ⟨H.held_le, by omega, fun fd => ⟨H.given_eq fd, H.holders_le fd⟩, ?_, ?_⟩
  · intro fd k i hslot
    exact ⟨H.slot_holds hslot, fun k' i' hslot' => H.slot_unique hslot hslot'⟩
  · intro k fd hmem
    obtain ⟨j, hj⟩ := List.mem_iff_getElem?.mp hmem
    exact (H.workers k).exists_free hj (H.worker_le k)

theorem descriptors_have_one_owner_exchanged : ∃ h : Host single,
    run Host.next (.ok .initial) exchanged = some (.ok h) ∧ h.given.count 7 = 1 ∧
    h.given.count 7 = h.closedCount 7 + 1 := by
  have hends : ((run Host.next (.ok .initial) exchanged).map fun t => match t with
      | .ok h => some (h.given.count 7, ((h.workers single.thread).slots single.slot).fd)
      | .error _ => none) = some (some (1, some 7)) := by decide +kernel
  obtain ⟨t, hrun, hheld⟩ := Option.map_eq_some_iff.mp hends
  cases t with
  | error e => cases hheld
  | ok h =>
    obtain ⟨hgiven, hslot⟩ := Prod.mk.inj (Option.some.inj hheld)
    have howner := (descriptors_have_one_owner hrun rfl).2.2.2.1 7 single.thread single.slot hslot
    exact ⟨h, hrun, hgiven, howner.1⟩

end DragonsNet.Native.EchoUring
