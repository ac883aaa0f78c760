/- GID: DragonsNet/Dataplane/ShardHandlers
   source: migration/dataplane/host/src/uring.rs
   digest: What a slot waits for between handlers, and that each handler leaves it so. -/

import DragonsNet.Dataplane.Shard
import DragonsNet.Lib.Lists

set_option autoImplicit false

namespace DragonsNet.Dataplane.ShardHandlers

open Lib.Lists (countP_eraseIdx countP_set)
open Dataplane.Shard

structure Plain (c : Conn) : Prop where
  step : c.step = none
  proxy : c.proxy = none
  awaiting : c.awaitingStreamHead = false
  split : c.split = false

structure Dialed (c : Conn) (d : ProxyDial) : Prop where
  step : c.step.isSome
  proxy : c.proxy = some d
  split : c.split = false

def Streaming (c : Conn) : Prop :=
  ∃ d, Dialed c d ∧ c.awaitingStreamHead = false ∧ (d.sse || d.stream) = true

/-- The counts of a zero-copy response are those of its operations with the kernel. -/
structure ZcCounted (c : Conn) (ops : List Op) : Prop where
  kinds : ∀ o ∈ ops, (o.kind = .sendZc ∨ o.kind = .zcNotif) ∧ o.conn = c.id ∧ o.dial = none
  data : c.zcIssued = c.zcData + ops.countP (·.kind == .sendZc)
  notif : c.zcNotifExp = c.zcNotif + ops.countP (·.kind == .zcNotif)

/-- What a slot waits for: one operation, the completions of one zero-copy response, or a reply
of the serve thread. After a sweep the dial is gone that awaits its head, and two are due. -/
inductive Mode (zc : Bool) : Option Conn → List Op → List ℕ → Prop
  | free : Mode zc none [] []
  | receiving {c : Conn} {k : Kind} : k = .recv ∨ k = .recvBr → Plain c →
      Mode zc (some c) [⟨k, c.id, none⟩] []
  | sending {c : Conn} : zc = false → Plain c ∨ Streaming c →
      Mode zc (some c) [⟨.send, c.id, none⟩] []
  | sendingZc {c : Conn} {ops : List Op} : zc = true → Plain c ∨ Streaming c →
      ZcCounted c ops → ops ≠ [] → Mode zc (some c) ops []
  | splitting {c : Conn} : Plain { c with split := false } → c.split = true →
      Mode zc (some c) [⟨.writev, c.id, none⟩] []
  | static {c : Conn} (op : StaticOp) : Plain c → c.staticSend = true →
      Mode zc (some c) [⟨op.kind, c.id, none⟩] []
  | dialing {c : Conn} {d : ProxyDial} {k : Kind} :
      k = .proxyConnect ∨ k = .proxySend ∨ k = .proxyRecv → Dialed c d →
      c.awaitingStreamHead = false → Mode zc (some c) [⟨k, c.id, some d.id⟩] []
  | serving {c : Conn} : c.proxy = none → c.awaitingStreamHead = false → c.split = false →
      Mode zc (some c) [] [c.id]
  | heading {c : Conn} {d : ProxyDial} : Dialed c d → c.awaitingStreamHead = true →
      d.stream = false → Mode zc (some c) [] [c.id]
  | swept {c : Conn} : c.proxy = none → c.awaitingStreamHead = true → c.split = false →
      Mode zc (some c) [] [c.id, c.id]

/-- No dial pushed twice, and neither the slot's own dial nor one of the other slots, which are
`foreign` here, pushed at all. -/
structure Ids (foreign : ℕ → Prop) (proxy : Option ProxyDial) (nextDial : ℕ)
    (pushed : List ℕ) : Prop where
  once : pushed.Nodup
  old : ∀ d ∈ pushed, d < nextDial
  live : ∀ d, proxy = some d → d.id < nextDial ∧ d.id ∉ pushed ∧ ¬ foreign d.id
  others : ∀ d, foreign d → d < nextDial ∧ d ∉ pushed

structure Good (zc : Bool) (foreign : ℕ → Prop) (v : View) : Prop where
  mode : Mode zc v.conn v.ops v.replies
  ids : Ids foreign (v.conn.bind Conn.proxy) v.nextDial v.pushed
  idle : v.busyDrop = false

variable {zc : Bool} {cfg : Cfg} {F : ℕ → Prop} {c : Conn} {d : ProxyDial} {now nextDial : ℕ}
variable {pushed : List ℕ} {proxy : Option ProxyDial} {ops : List Op} {n : ℕ} {o : Op} {r : Result}
  {v : View}

theorem Ids.gone (h : Ids F proxy nextDial pushed) : Ids F none nextDial pushed :=
  ⟨h.once, h.old, nofun, h.others⟩

private theorem Ids.retyped {d' : ProxyDial} (h : Ids F (some d) nextDial pushed)
    (hid : d'.id = d.id) :
    Ids F (some d') nextDial pushed := by
  refine ⟨h.once, h.old, ?_, h.others⟩
  rintro _ ⟨⟩
  rw [hid]
  exact h.live d rfl

theorem Ids.push (h : Ids F (some d) nextDial pushed) :
    Ids F none nextDial (d.id :: pushed) := by
  obtain ⟨hlt, hnew, hown⟩ := h.live d rfl
  refine ⟨List.nodup_cons.mpr ⟨hnew, h.once⟩, ?_, nofun, ?_⟩
  · intro x hx
    rcases List.mem_cons.mp hx with rfl | hx
    · exact hlt
    · exact h.old x hx
  · intro x hx
    refine ⟨(h.others x hx).1, ?_⟩
    intro hmem
    rcases List.mem_cons.mp hmem with rfl | hmem
    · exact hown hx
    · exact (h.others x hx).2 hmem

theorem Ids.fresh (h : Ids F proxy nextDial pushed) (hd : d.id = nextDial) :
    Ids F (some d) (nextDial + 1) pushed := by
  refine ⟨h.once, fun x hx => (h.old x hx).trans (Nat.lt_succ_self _), ?_, ?_⟩
  · rintro _ ⟨⟩
    rw [hd]
    exact ⟨Nat.lt_succ_self _, fun hx => lt_irrefl _ (h.old _ hx),
      fun hx => lt_irrefl _ (h.others _ hx).1⟩
  · intro x hx
    exact ⟨(h.others x hx).1.trans (Nat.lt_succ_self _), (h.others x hx).2⟩

/-- A slot as its handler finds it when nothing else is due for it. -/
def quiet (c : Conn) (now nextDial : ℕ) (pushed : List ℕ) : View :=
  ⟨some c, [], [], now, nextDial, pushed, false⟩

private theorem quiet_takeProxy :
    (quiet c now nextDial pushed).takeProxy = quiet { c with proxy := none } now nextDial pushed := by
  cases hp : c.proxy with
  | none =>
    have hc : { c with proxy := none } = c := by rw [← hp]
    simp only [View.takeProxy, quiet, hp, hc]
  | some d => simp [View.takeProxy, quiet, hp, View.drop, View.modify]

private theorem quiet_close (h : Ids F c.proxy nextDial pushed) :
    Good zc F (quiet c now nextDial pushed).close := by
  rw [View.close, quiet_takeProxy]
  exact ⟨.free, h.gone, rfl⟩

theorem quiet_armRecv (h : Ids F c.proxy nextDial pushed) (hc : Plain c) :
    Good zc F ((quiet c now nextDial pushed).armRecv cfg) := by
  unfold View.armRecv
  split
  · exact ⟨.receiving (.inr rfl) hc, h, rfl⟩
  · exact ⟨.receiving (.inl rfl) hc, h, rfl⟩

private theorem quiet_stage (h : Ids F c.proxy nextDial pushed) (hc : Plain c ∨ Streaming c) :
    Good cfg.zc F ((quiet c now nextDial pushed).stage cfg) := by
  have hstaged : ∀ n : ℕ, Plain { c with
      resp := true, zcIssued := n, zcData := 0, zcNotifExp := 0, zcNotif := 0, zcError := false } ∨
      Streaming { c with
        resp := true, zcIssued := n, zcData := 0, zcNotifExp := 0, zcNotif := 0,
        zcError := false } := by
    intro n
    rcases hc with hc | ⟨d, hd, hw, hs⟩
    · exact .inl ⟨hc.step, hc.proxy, hc.awaiting, hc.split⟩
    · exact .inr ⟨d, ⟨hd.step, hd.proxy, hd.split⟩, hw, hs⟩
  unfold View.stage View.pushSend
  split
  · rename_i hz
    refine ⟨.sendingZc hz (hstaged 1) ⟨?_, rfl, rfl⟩ (List.cons_ne_nil _ _), h, rfl⟩
    intro o ho
    obtain rfl := List.mem_singleton.mp ho
    exact ⟨.inl rfl, rfl, rfl⟩
  · rename_i hz
    exact ⟨.sending (by simpa using hz) (hstaged 0), h, rfl⟩

private theorem quiet_stageSplit (h : Ids F c.proxy nextDial pushed) (hc : Plain c) :
    Good zc F (quiet c now nextDial pushed).stageSplit :=
  ⟨.splitting ⟨hc.step, hc.proxy, hc.awaiting, rfl⟩ rfl, h, rfl⟩

theorem quiet_stageResponse (h : Ids F c.proxy nextDial pushed) (hc : Plain c)
    (splitStatic canSplit : Bool) :
    Good cfg.zc F ((quiet c now nextDial pushed).stageResponse cfg splitStatic canSplit) := by
  unfold View.stageResponse
  split_ifs
  · exact quiet_stageSplit h hc
  · exact quiet_stageSplit h hc
  · exact quiet_close h
  · exact quiet_stage h (.inl hc)

private theorem quiet_dispatchAcc (h : Ids F c.proxy nextDial pushed) (hc : Plain c) (next : Next) :
    Good cfg.zc F (dispatchAcc cfg next (quiet c now nextDial pushed)) := by
  induction next with
  | refuse canSplit => exact quiet_stageResponse h hc false canSplit
  | more => exact quiet_armRecv h hc
  | handoff => exact quiet_close h
  | drop => exact quiet_close h
  | static op => exact ⟨.static op ⟨hc.step, hc.proxy, hc.awaiting, hc.split⟩ rfl, h, rfl⟩
  | staticClose => exact quiet_close h
  | staticAgain next ih => exact ih
  | step | serve => exact ⟨.serving hc.proxy hc.awaiting hc.split, h, rfl⟩

private theorem quiet_finishSend (h : Ids F c.proxy nextDial pushed) (hc : Plain c)
    (finish : Finish) :
    Good cfg.zc F (finishSend cfg finish (quiet c now nextDial pushed)) := by
  cases finish with
  | close => exact quiet_close h
  | again next => exact quiet_dispatchAcc h hc next

private theorem quiet_onRecv (h : Ids F c.proxy nextDial pushed) (hc : Plain c) (r : RecvResult) :
    Good cfg.zc F (onRecv cfg (quiet c now nextDial pushed) r) := by
  cases r with
  | ended => exact quiet_close h
  | noBuffers => exact ⟨.receiving (.inl rfl) hc, h, rfl⟩
  | borrowed ok =>
    cases ok
    · exact quiet_close h
    · exact ⟨.serving hc.proxy hc.awaiting hc.split, h, rfl⟩
  | received next => exact quiet_dispatchAcc h hc next

private theorem quiet_onStatic (h : Ids F c.proxy nextDial pushed) (hc : Plain c)
    (hs : c.staticSend = true) (r : StaticResult) :
    Good cfg.zc F (onStatic cfg (quiet c now nextDial pushed) r) := by
  have hc' : Plain { c with staticSend := false } := ⟨hc.step, hc.proxy, hc.awaiting, hc.split⟩
  have hany : (quiet c now nextDial pushed).conn.any Conn.staticSend = true := hs
  cases r with
  | failed => exact quiet_close h
  | next op =>
    rw [onStatic, if_pos hany]
    exact ⟨.static op hc hs, h, rfl⟩
  | finish finish =>
    rw [onStatic, if_pos hany]
    exact quiet_finishSend (c := { c with staticSend := false }) h hc' finish

private theorem quiet_pushResult (dial : Option ℕ) (h : Ids F none nextDial (dial.toList ++ pushed))
    (hp : c.proxy = none) (hw : c.awaitingStreamHead = false) (hs : c.split = false)
    (hstep : c.step.isSome) (ok : Bool) :
    Good zc F (pushResultAndResume (quiet c now nextDial pushed) dial ok) := by
  obtain ⟨results, hr⟩ := Option.isSome_iff_exists.mp hstep
  have hids : Ids F c.proxy nextDial (dial.toList ++ pushed) := hp ▸ h
  cases ok with
  | false =>
    simp only [pushResultAndResume, quiet, hr]
    exact quiet_close (c := { c with step := none }) hids
  | true =>
    simp only [pushResultAndResume, quiet, hr]
    exact ⟨.serving hp hw hs, hids, rfl⟩

section Dialing

variable (h : Ids F (some d) nextDial pushed) (hc : Dialed c d)
  (hw : c.awaitingStreamHead = false)
include h hc hw

private theorem quiet_dialFailed (ok : Bool) :
    Good zc F (proxyDialFailed (quiet c now nextDial pushed) (some d.id) ok) := by
  rw [proxyDialFailed, quiet_takeProxy]
  exact quiet_pushResult (c := { c with proxy := none }) (some d.id) h.push rfl hw hc.split hc.step ok

private theorem quiet_replyDone (ok : Bool) :
    Good zc F (proxyReplyDone (quiet c now nextDial pushed) (some d.id) ok) := by
  have hbind : (quiet c now nextDial pushed).conn.bind Conn.proxy = some d := hc.proxy
  simp only [proxyReplyDone, hbind, quiet_takeProxy]
  exact quiet_pushResult (c := { c with proxy := none }) (some d.id) h.push rfl hw hc.split hc.step ok

private theorem quiet_streamFinish (finish : Finish) :
    Good cfg.zc F (proxyStreamFinish cfg (quiet c now nextDial pushed) finish) := by
  simp only [proxyStreamFinish, quiet_takeProxy]
  exact quiet_finishSend (c := { c with proxy := none, step := none }) h.gone
    ⟨rfl, rfl, hw, hc.split⟩ finish

private theorem quiet_armProxy {k : Kind}
    (hk : k = .proxyConnect ∨ k = .proxySend ∨ k = .proxyRecv) :
    Good zc F (armProxy cfg (quiet c now nextDial pushed) k) := by
  have hbind : (quiet c now nextDial pushed).conn.bind Conn.proxy = some d := hc.proxy
  rw [armProxy, hbind]
  simp only [setProxyDeadline, View.modify, View.push, quiet, Option.map_some, hc.proxy,
    List.nil_append]
  exact ⟨.dialing (d := { d with
    opDeadline := now + if d.sse then cfg.sseTimeout else cfg.proxyTimeout }) hk
      ⟨hc.step, rfl, hc.split⟩ hw, h.retyped rfl, rfl⟩

private theorem quiet_armProxyRecv :
    Good zc F (armProxyRecv cfg (quiet c now nextDial pushed)) :=
  quiet_armProxy h hc hw (.inr (.inr rfl))

private theorem quiet_afterSend (r : SendResult) :
    Good cfg.zc F (proxyAfterSend cfg (quiet c now nextDial pushed) r) := by
  have hc' : Dialed { c with
      resp := false, zcIssued := 0, zcData := 0, zcNotifExp := 0, zcNotif := 0,
      zcError := false } d := ⟨hc.step, hc.proxy, hc.split⟩
  unfold proxyAfterSend
  split
  · exact quiet_streamFinish h hc' hw r.finish
  · exact quiet_armProxyRecv h hc' hw

end Dialing

private theorem quiet_responseSent (h : Ids F c.proxy nextDial pushed) (hc : Plain c ∨ Streaming c)
    (r : SendResult) : Good cfg.zc F (responseSent cfg (quiet c now nextDial pushed) r) := by
  rcases hc with hc | ⟨d, hd, hw, hs⟩
  · have hnot : streaming (quiet c now nextDial pushed) = false := by
      simp [streaming, quiet, hc.proxy]
    rw [responseSent, hnot]
    exact quiet_finishSend (c := { c with
      resp := false, zcIssued := 0, zcData := 0, zcNotifExp := 0, zcNotif := 0,
      zcError := false }) h ⟨hc.step, hc.proxy, hc.awaiting, hc.split⟩ r.finish
  · have hstream : streaming (quiet c now nextDial pushed) = true := by
      simpa [streaming, quiet, hd.proxy] using hs
    rw [responseSent, hstream]
    exact quiet_afterSend (hd.proxy ▸ h) hd hw r

private theorem quiet_onSplitSend (h : Ids F c.proxy nextDial pushed)
    (hc : Plain { c with split := false }) (hs : c.split = true) (r : SendResult) :
    Good cfg.zc F (onSplitSend cfg (quiet c now nextDial pushed) r) := by
  unfold onSplitSend
  split_ifs
  · exact quiet_close h
  · exact ⟨.splitting hc hs, h, rfl⟩
  · exact quiet_finishSend (c := { c with split := false }) h hc r.finish

section Proxying

variable (h : Ids F (some d) nextDial pushed) (hc : Dialed c d)
  (hw : c.awaitingStreamHead = false)
include h hc hw

private theorem quiet_onProxyConnect (ok : Bool) (r : ProxyResult) :
    Good zc F (onProxyConnect cfg (quiet c now nextDial pushed) (some d.id) ok r) := by
  cases r with
  | failed => exact quiet_dialFailed h hc hw ok
  | short | eof finish | ok got => exact quiet_armProxy h hc hw (.inr (.inl rfl))

private theorem quiet_onProxySend (ok : Bool) (r : ProxyResult) :
    Good zc F (onProxySend cfg (quiet c now nextDial pushed) (some d.id) ok r) := by
  cases r with
  | failed => exact quiet_dialFailed h hc hw ok
  | short => exact quiet_armProxy h hc hw (.inr (.inl rfl))
  | eof finish | ok got => exact quiet_armProxyRecv h hc hw

private theorem quiet_streamStart (d' : ProxyDial) (hid : d'.id = d.id)
    (hs : (d'.sse || d'.stream) = true) :
    Good cfg.zc F ((quiet { c with proxy := some d' } now nextDial pushed).stage cfg) :=
  quiet_stage (h.retyped hid) (.inr ⟨d', ⟨hc.step, rfl, hc.split⟩, hw, hs⟩)

private theorem quiet_got (ok : Bool) (got : Got) :
    Good cfg.zc F (onProxyRecv cfg (quiet c now nextDial pushed) (some d.id) ok (.ok got)) := by
  have hbind : (quiet c now nextDial pushed).conn.bind Conn.proxy = some d := hc.proxy
  simp only [onProxyRecv, hbind]
  split
  · rename_i hs
    exact quiet_stage (hc.proxy ▸ h) (.inr ⟨d, hc, hw, hs⟩)
  rename_i hs
  cases got with
  | sseStart =>
    have hmod : (quiet c now nextDial pushed).modify
        (fun c => { c with proxy := c.proxy.map fun d => { d with sse := true } }) =
        quiet { c with proxy := some { d with sse := true } } now nextDial pushed := by
      simp [quiet, View.modify, hc.proxy]
    rw [hmod]
    exact quiet_streamStart h hc hw { d with sse := true } rfl rfl
  | sseRefused => exact quiet_dialFailed h hc hw ok
  | head =>
    have hany : (quiet c now nextDial pushed).conn.any (fun c => c.step.isSome) = true := hc.step
    simp only [hany, if_true]
    have hids : Ids F c.proxy nextDial pushed := hc.proxy ▸ h
    simp only [Bool.or_eq_true, not_or, Bool.not_eq_true] at hs
    exact ⟨.heading (d := d) ⟨hc.step, hc.proxy, hc.split⟩ rfl hs.2, hids, rfl⟩
  | complete => exact quiet_replyDone h hc hw ok
  | more => exact quiet_armProxyRecv h hc hw

private theorem quiet_onProxyRecv (ok : Bool) (r : ProxyResult) :
    Good cfg.zc F (onProxyRecv cfg (quiet c now nextDial pushed) (some d.id) ok r) := by
  have hbind : (quiet c now nextDial pushed).conn.bind Conn.proxy = some d := hc.proxy
  cases r with
  | failed | short => exact quiet_dialFailed h hc hw ok
  | eof finish =>
    simp only [onProxyRecv, hbind]
    split_ifs
    · exact quiet_streamFinish h hc hw .close
    · exact quiet_streamFinish h hc hw finish
    · exact quiet_replyDone h hc hw ok
  | ok got => exact quiet_got h hc hw ok got

end Proxying

private theorem quiet_onStepReply (h : Ids F none nextDial pushed) (hp : c.proxy = none)
    (hw : c.awaitingStreamHead = false) (hs : c.split = false) (hstep : c.step.isSome)
    (r : StepReply) : Good cfg.zc F (onStepReply cfg (quiet c now nextDial pushed) r) := by
  have hc : Plain { c with step := none } := ⟨rfl, hp, hw, hs⟩
  have hids : Ids F c.proxy nextDial pushed := hp ▸ h
  cases r with
  | done canSplit => exact quiet_stageResponse (c := { c with step := none }) hids hc false canSplit
  | cache ok => exact quiet_pushResult none h hp hw hs hstep ok
  | defer spawned =>
    obtain ⟨results, hr⟩ := Option.isSome_iff_exists.mp hstep
    have hbind : (quiet c now nextDial pushed).conn.bind Conn.step = some results := hr
    simp only [onStepReply, hbind]
    cases spawned
    · exact quiet_close (c := { c with step := none }) hids
    · exact ⟨.serving hp hw hs, hids, rfl⟩
  | noSocket ok => exact quiet_pushResult none h hp hw hs hstep ok
  | proxy =>
    simp only [onStepReply, startProxyDial, quiet, hp, View.modify, View.push, Option.map_some,
      List.nil_append]
    exact ⟨.dialing (d := ⟨nextDial, false, false, _⟩) (.inl rfl) ⟨hstep, rfl, hs⟩ hw,
      h.fresh rfl, rfl⟩

private theorem quiet_headReply (h : Ids F (some d) nextDial pushed) (hc : Dialed c d) (ok : Bool)
    (r : HeadReply) :
    Good cfg.zc F (onStreamHeadReply cfg (quiet c now nextDial pushed) ok r) := by
  have hc' : Dialed { c with awaitingStreamHead := false } d := ⟨hc.step, hc.proxy, hc.split⟩
  have hbind : (quiet { c with awaitingStreamHead := false } now nextDial pushed).conn.bind
      Conn.proxy = some d := hc.proxy
  have hview : (quiet c now nextDial pushed).modify
      (fun c => { c with awaitingStreamHead := false }) =
      quiet { c with awaitingStreamHead := false } now nextDial pushed := rfl
  simp only [onStreamHeadReply, hview, hbind]
  cases r with
  | empty complete =>
    cases complete
    · exact quiet_armProxyRecv h hc' rfl
    · exact quiet_replyDone h hc' rfl ok
  | head =>
    have hmod : (quiet { c with awaitingStreamHead := false } now nextDial pushed).modify
        (fun c => { c with proxy := c.proxy.map fun d => { d with stream := true } }) =
        quiet { c with awaitingStreamHead := false, proxy := some { d with stream := true } }
          now nextDial pushed := by
      simp [quiet, View.modify, hc.proxy]
    rw [hmod]
    exact quiet_streamStart h hc' rfl { d with stream := true } rfl (by simp)

private theorem ZcCounted.settled_iff (h : ZcCounted c ops) : settled c = true ↔ ops = [] := by
  have hlen : ops.length = ops.countP (·.kind == .sendZc) + ops.countP (·.kind == .zcNotif) := by
    rw [List.length_eq_countP_add_countP (·.kind == Kind.sendZc)]
    congr 1
    refine List.countP_congr fun o ho => ?_
    rcases (h.kinds o ho).1 with hk | hk <;> simp [hk]
  have hdata := h.data
  have hnotif := h.notif
  simp only [settled, Bool.and_eq_true, beq_iff_eq]
  rw [← List.length_eq_zero_iff]
  omega

private theorem ZcCounted.data_done (h : ZcCounted c ops) (ho : ops[n]? = some o)
    (hk : o.kind = .sendZc)
    (err : Bool) :
    ZcCounted { c with
      zcData := c.zcData + 1
      zcNotifExp := c.zcNotifExp + if r.send.more then 1 else 0
      zcError := err } (uncompleted ops n o r) := by
  have hown := h.kinds o (List.mem_of_getElem? ho)
  have hdata := h.data
  have hnotif := h.notif
  rw [countP_eraseIdx ho, hk] at hdata hnotif
  cases hm : r.send.more with
  | false =>
    simp only [uncompleted, hm, Bool.and_false, Bool.false_eq_true, if_false]
    refine ⟨fun x hx => h.kinds x (List.mem_of_mem_eraseIdx hx), ?_, hnotif⟩
    simp only [beq_self_eq_true, if_true] at hdata
    dsimp only
    omega
  | true =>
    simp only [uncompleted, hm, hk, beq_self_eq_true, Bool.and_true, if_true]
    refine ⟨fun x hx => ?_, ?_, ?_⟩
    · rcases List.mem_or_eq_of_mem_set hx with hx | rfl
      · exact h.kinds x hx
      · exact ⟨.inr rfl, hown.2⟩
    · rw [countP_set ho]
      simp at hdata ⊢
      omega
    · rw [countP_set ho]
      simp at hnotif ⊢
      omega

private theorem ZcCounted.notif_done (h : ZcCounted c ops) (ho : ops[n]? = some o)
    (hk : o.kind = .zcNotif)
    :
    ZcCounted { c with zcNotif := c.zcNotif + 1 } (uncompleted ops n o r) := by
  have hdata := h.data
  have hnotif := h.notif
  rw [countP_eraseIdx ho, hk] at hdata hnotif
  have hun : uncompleted ops n o r = ops.eraseIdx n := by simp [uncompleted, hk]
  rw [hun]
  refine ⟨fun x hx => h.kinds x (List.mem_of_mem_eraseIdx hx), hdata, ?_⟩
  simp only [beq_self_eq_true, if_true] at hnotif
  dsimp only
  omega

theorem ZcCounted.issued (h : ZcCounted c ops) :
    ZcCounted { c with zcIssued := c.zcIssued + 1 } (ops ++ [⟨.sendZc, c.id, none⟩]) := by
  have hdata := h.data
  have hnotif := h.notif
  refine ⟨fun x hx => ?_, ?_, ?_⟩
  · rcases List.mem_append.mp hx with hx | hx
    · exact h.kinds x hx
    · obtain rfl := List.mem_singleton.mp hx
      exact ⟨.inl rfl, rfl, rfl⟩
  · simp
    omega
  · simpa using hnotif

private theorem zc_settle (hcount : ZcCounted c ops) (hz : cfg.zc = true)
    (h : Ids F c.proxy nextDial pushed) (hc : Plain c ∨ Streaming c) (r : SendResult) :
    Good cfg.zc F (if settled c then
      responseSent cfg ⟨some c, ops, [], now, nextDial, pushed, false⟩ r
      else ⟨some c, ops, [], now, nextDial, pushed, false⟩) := by
  cases hs : settled c with
  | true =>
    obtain rfl := hcount.settled_iff.mp hs
    exact quiet_responseSent h hc r
  | false =>
    have hne : ops ≠ [] := fun hnil => by simp [hcount.settled_iff.mpr hnil] at hs
    exact ⟨.sendingZc hz hc hcount hne, h, rfl⟩

private theorem recounted {c' : Conn} (hc : Plain c ∨ Streaming c) (hstep : c'.step = c.step)
    (hp : c'.proxy = c.proxy) (hw : c'.awaitingStreamHead = c.awaitingStreamHead)
    (hs : c'.split = c.split) : Plain c' ∨ Streaming c' := by
  rcases hc with hc | ⟨d, hd, haw, hst⟩
  · exact .inl ⟨hstep.trans hc.step, hp.trans hc.proxy, hw.trans hc.awaiting, hs.trans hc.split⟩
  · exact .inr ⟨d, ⟨hstep ▸ hd.step, hp.trans hd.proxy, hs.trans hd.split⟩, hw.trans haw, hst⟩

private theorem not_split (hc : Plain c ∨ Streaming c) : c.split = false := by
  rcases hc with hc | ⟨d, hd, -, -⟩
  · exact hc.split
  · exact hd.split

private theorem onSend_zc (hz : cfg.zc = true) (hs : c.split = false) (notif : Bool)
    (r : SendResult) :
    onSend cfg ⟨some c, ops, [], now, nextDial, pushed, false⟩ notif r =
      onSendZc cfg ⟨some c, ops, [], now, nextDial, pushed, false⟩ notif r := by
  simp [onSend, hz, hs]

private theorem onSend_plain (hz : cfg.zc = false) (hs : c.split = false) (notif : Bool)
    (r : SendResult) :
    onSend cfg (quiet c now nextDial pushed) notif r =
      if r.failed then (quiet c now nextDial pushed).close
      else if r.short then (quiet c now nextDial pushed).push .send none
      else responseSent cfg (quiet c now nextDial pushed) r := by
  simp [onSend, quiet, hz, hs]

private theorem countZc_data (r : SendResult) (c₁ : Conn) (hc₁ : c₁ = { c with
      zcData := c.zcData + 1
      zcNotifExp := c.zcNotifExp + if r.more then 1 else 0
      zcError := c.zcError || r.failed }) :
    countZc ⟨some c, ops, [], now, nextDial, pushed, false⟩ false r =
        ⟨some c₁, ops, [], now, nextDial, pushed, false⟩ ∨
      countZc ⟨some c, ops, [], now, nextDial, pushed, false⟩ false r =
        ⟨some { c₁ with zcIssued := c₁.zcIssued + 1 }, ops ++ [⟨.sendZc, c₁.id, none⟩], [], now,
          nextDial, pushed, false⟩ := by
  subst hc₁
  simp only [countZc, Bool.false_eq_true, if_false, View.modify, Option.map_some]
  exact (ite_eq_or_eq _ _ _).symm

private theorem zc_onSend (hz : cfg.zc = true) (h : Ids F c.proxy nextDial pushed)
    (hc : Plain c ∨ Streaming c) (hcount : ZcCounted c ops) (ho : ops[n]? = some o) :
    Good cfg.zc F (handle cfg ⟨some c, uncompleted ops n o r, [], now, nextDial, pushed, false⟩
      o r) := by
  have hsplit := not_split hc
  rcases (hcount.kinds o (List.mem_of_getElem? ho)).1 with hk | hk
  · have hdone := hcount.data_done (r := r) ho hk (c.zcError || r.send.failed)
    simp only [handle, hk, onSend_zc hz hsplit, onSendZc]
    rcases countZc_data r.send _ rfl with heq | heq
    · rw [heq]
      exact zc_settle hdone hz h (recounted hc rfl rfl rfl rfl) r.send
    · rw [heq]
      exact zc_settle hdone.issued hz h (recounted hc rfl rfl rfl rfl) r.send
  · simp only [handle, hk, onSend_zc hz hsplit, onSendZc, countZc, if_true]
    exact zc_settle (hcount.notif_done ho hk) hz h (recounted hc rfl rfl rfl rfl) r.send

private theorem uncompleted_one {o p : Op} (ho : [o][n]? = some p) (hk : o.kind ≠ .sendZc) :
    p = o ∧ uncompleted [o] n p r = [] := by
  obtain ⟨hn, rfl⟩ := List.getElem?_eq_some_iff.mp ho
  obtain rfl : n = 0 := by simpa using hn
  refine ⟨rfl, ?_⟩
  simp [uncompleted, hk]

theorem Good.complete (h : Good cfg.zc F v) (ho : v.ops[n]? = some o) :
    owned v.conn o = true ∧ Good cfg.zc F (handle cfg { v with ops := uncompleted v.ops n o r } o r)
    := by
  obtain ⟨conn, ops, replies, now, nextDial, pushed, busyDrop⟩ := v
  obtain ⟨hmode, hids, hidle⟩ := h
  obtain rfl : busyDrop = false := hidle
  cases hmode with
  | free => simp at ho
  | @receiving c k hk hc =>
    obtain ⟨rfl, hnone⟩ := uncompleted_one (r := r) ho (by rcases hk with rfl | rfl <;> nofun)
    refine ⟨by simp [owned], ?_⟩
    simp only [hnone]
    rcases hk with rfl | rfl
    · exact quiet_onRecv hids hc r.recv
    · exact quiet_onRecv hids hc r.recv
  | @sending c hz hc =>
    obtain ⟨rfl, hnone⟩ := uncompleted_one (r := r) ho nofun
    refine ⟨by simp [owned], ?_⟩
    simp only [hnone, handle]
    refine (onSend_plain hz (not_split hc) false r.send).symm ▸ ?_
    split_ifs
    · exact quiet_close hids
    · exact ⟨.sending hz hc, hids, rfl⟩
    · exact quiet_responseSent hids hc r.send
  | @sendingZc c ops hz hc hcount hne =>
    obtain ⟨-, hown, hdial⟩ := hcount.kinds o (List.mem_of_getElem? ho)
    exact ⟨by simp [owned, hown, hdial], zc_onSend hz hids hc hcount ho⟩
  | @splitting c hc hs =>
    obtain ⟨rfl, hnone⟩ := uncompleted_one (r := r) ho nofun
    refine ⟨by simp [owned], ?_⟩
    simp only [hnone, handle, onSend, Option.any_some, hs, if_true]
    exact quiet_onSplitSend hids hc hs r.send
  | @static c op hc hs =>
    obtain ⟨rfl, hnone⟩ := uncompleted_one (r := r) ho (by cases op <;> nofun)
    refine ⟨by simp [owned], ?_⟩
    simp only [hnone]
    cases op
    · exact quiet_onStatic hids hc hs r.static
    · exact quiet_onStatic hids hc hs r.static
    · exact quiet_onStatic hids hc hs r.static
  | @dialing c d k hk hc hw =>
    obtain ⟨rfl, hnone⟩ :=
      uncompleted_one (r := r) ho (by rcases hk with rfl | rfl | rfl <;> nofun)
    have hids' : Ids F (some d) nextDial pushed := hc.proxy ▸ hids
    refine ⟨by simp [owned, hc.proxy], ?_⟩
    simp only [hnone]
    rcases hk with rfl | rfl | rfl
    · exact quiet_onProxyConnect hids' hc hw r.ok r.proxy
    · exact quiet_onProxySend hids' hc hw r.ok r.proxy
    · exact quiet_onProxyRecv hids' hc hw r.ok r.proxy
  | serving => simp at ho
  | heading => simp at ho
  | swept => simp at ho

theorem Good.reply {id : ℕ} {rest : List ℕ} (r : Reply) (h : Good cfg.zc F v)
    (hr : v.replies = id :: rest) : Good cfg.zc F (onReply cfg { v with replies := rest } r) := by
  obtain ⟨conn, ops, replies, now, nextDial, pushed, busyDrop⟩ := v
  obtain ⟨hmode, hids, hidle⟩ := h
  obtain rfl : busyDrop = false := hidle
  cases hmode with
  | @serving c hp hw hs =>
    obtain ⟨rfl, rfl⟩ := List.cons_eq_cons.mp hr
    have hids' : Ids F none nextDial pushed := hp ▸ hids
    simp only [onReply, Option.any_some, hw, Bool.false_eq_true, if_false]
    split
    · rename_i hstep
      exact quiet_onStepReply hids' hp hw hs hstep r.step
    · rename_i hstep
      exact quiet_stageResponse hids ⟨by simpa using hstep, hp, hw, hs⟩ r.splitStatic r.canSplit
  | @heading c d hc hw hd =>
    obtain ⟨rfl, rfl⟩ := List.cons_eq_cons.mp hr
    have hids' : Ids F (some d) nextDial pushed := hc.proxy ▸ hids
    simp only [onReply, Option.any_some, hw, if_true]
    exact quiet_headReply hids' hc r.ok r.head
  | @swept c hp hw hs =>
    obtain ⟨rfl, rfl⟩ := List.cons_eq_cons.mp hr
    have hids' : Ids F none nextDial pushed := hp ▸ hids
    simp only [onReply, Option.any_some, hw, if_true, onStreamHeadReply, View.modify,
      Option.map_some, Option.bind_some, hp]
    exact ⟨.serving rfl rfl hs, hids', rfl⟩
  | free => cases hr
  | receiving => cases hr
  | sending => cases hr
  | sendingZc => cases hr
  | splitting => cases hr
  | static => cases hr
  | dialing => cases hr

theorem Good.timeout (h : Good cfg.zc F v) (hd : v.conn.bind Conn.proxy = some d)
    (hops : v.ops = []) :
    d.stream = false ∧ Good cfg.zc F (proxyDialFailed v (some d.id) true) := by
  obtain ⟨conn, ops, replies, now, nextDial, pushed, busyDrop⟩ := v
  obtain ⟨hmode, hids, hidle⟩ := h
  obtain rfl : busyDrop = false := hidle
  cases hmode with
  | @heading c d' hc hw hst =>
    obtain rfl : d' = d := Option.some.inj (hc.proxy.symm.trans hd)
    obtain ⟨results, hr⟩ := Option.isSome_iff_exists.mp hc.step
    have hids' : Ids F (some d') nextDial pushed := hc.proxy ▸ hids
    refine ⟨hst, ?_⟩
    simp only [proxyDialFailed, View.takeProxy, hc.proxy, View.drop, List.any_nil, Bool.or_false,
      View.modify, Option.map_some, pushResultAndResume, hr, if_true]
    exact ⟨.swept rfl hw hc.split, hids'.push, rfl⟩
  | free => cases hd
  | @serving c hp | @swept c hp => exact absurd (hp.symm.trans hd) nofun
  | sendingZc _ _ _ hne => exact absurd hops hne
  | receiving => cases hops
  | sending => cases hops
  | splitting => cases hops
  | static => cases hops
  | dialing => cases hops

theorem Good.present (h : Good zc F v) (hdue : v.ops ≠ [] ∨ v.replies ≠ []) : v.conn.isSome := by
  obtain ⟨conn, ops, replies, now, nextDial, pushed, busyDrop⟩ := v
  cases conn with
  | some c => rfl
  | none =>
    cases h.mode
    simp at hdue

end DragonsNet.Dataplane.ShardHandlers
