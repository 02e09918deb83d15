import Wslay.Event.Ledger

/-!
# The end of a fragmented message

A message is fragmented by its `read_callback`, which gives one chunk after the
other and sets `eof` in the call after which there is no more.
`wslay_event_send` tests for a chunk of length 0 before it looks at `eof`, so it
takes an empty last chunk for a pause.

* `InLine.pause`, `InLine.chunk` — what one pass does with one chunk.
* `Onward` — the passes of `wslay_event_send`, called again as long as
  `wslay_event_want_write` holds.
* `eof_ends_iff` — the call that sets `eof` ends the message if and only if it
  gives an octet.
-/

namespace Wslay

open Octets (Key xorFrom)
open Loop (Step)

/-! ## A callback that takes everything -/

/-- In its next `k` calls `send_callback` takes all it is offered, and
`genmask_callback` never fails.  No more than `sizeof ( ctx->obuf )` octets are
offered at a time. -/
structure Io.Accepts (io : Io) (k : Nat) : Prop where
  enough : k ≤ io.sends.length
  sends : ∀ r ∈ io.sends.take k, ∃ n, r = .accept n ∧ 4096 ≤ n
  masks : none ∉ io.masks

theorem Io.Accepts.cons {io : Io} {k : Nat} (h : io.Accepts (k + 1)) :
    ∃ n ss, io.sends = .accept n :: ss ∧ 4096 ≤ n ∧ { io with sends := ss }.Accepts k := by
  cases hs : io.sends with
  | nil =>
    have := h.enough
    rw [hs, List.length_nil] at this
    omega
  | cons r ss =>
    have hall := h.sends
    rw [hs, List.take_succ_cons] at hall
    obtain ⟨n, rfl, hn⟩ := hall r (List.mem_cons_self ..)
    refine ⟨n, ss, rfl, hn, ⟨?_, fun r hr => hall r (List.mem_cons_of_mem _ hr), h.masks⟩⟩
    have := h.enough
    rw [hs, List.length_cons] at this
    exact Nat.le_of_succ_le_succ this

theorem Io.Accepts.congr {io io' : Io} {k : Nat} (h : io.Accepts k) (hs : io'.sends = io.sends)
    (hm : ∀ x ∈ io'.masks, x ∈ io.masks) : io'.Accepts k :=
  ⟨hs ▸ h.enough, by rw [hs]; exact h.sends, fun hmem => h.masks (hm _ hmem)⟩

/-- A call of `send_callback` that takes everything. -/
theorem sendCallback_accepts {io : Io} {k : Nat} (h : io.Accepts (k + 1)) (offer : Offer)
    (hlen : offer.data.length ≤ 4096) :
    (io.sendCallback offer).1 = offer.data.length ∧ (io.sendCallback offer).2.Accepts k := by
  obtain ⟨n, ss, hs, hn, hrest⟩ := h.cons
  unfold Io.sendCallback
  simp only [hs]
  refine ⟨?_, hrest.congr rfl fun _ hx => hx⟩
  show (min (n : Int) offer.data.length) = offer.data.length
  omega

/-- The payload is taken at once. -/
theorem sendData_accepts (c : FrameContext) {iocb : Iocb} {io : Io} {k : Nat}
    (hne : iocb.data ≠ []) (hlen : iocb.data.length ≤ 4096) (h : io.Accepts (k + 1)) :
    (sendData c iocb io).1 = .ok iocb.data.length ∧ (sendData c iocb io).2.2.Accepts k := by
  have hpos := List.length_pos_of_ne_nil hne
  unfold sendData
  rw [if_neg hne]
  by_cases hmask : c.omask = true
  · rw [if_pos hmask]
    have htake : iocb.data.take tempSize = iocb.data := List.take_of_length_le hlen
    obtain ⟨hr, hacc⟩ := sendCallback_accepts h
      ⟨xorFrom c.omaskkey c.opayloadoff iocb.data, false, false⟩ (by simpa using hlen)
    obtain ⟨r, io₁, hcall⟩ : ∃ r io₁, io.sendCallback
        ⟨xorFrom c.omaskkey c.opayloadoff iocb.data, false, false⟩ = (r, io₁) := ⟨_, _, rfl⟩
    rw [hcall] at hr hacc
    simp only [Octets.length_xorFrom] at hr
    subst hr
    -- the loop goes round once, and then there is nothing left
    have hloop : ∀ fuel, 0 < fuel → sendMaskedLoop fuel c iocb.data 0 io =
        (.ok iocb.data.length, { c with opayloadoff := c.opayloadoff + iocb.data.length }, io₁) := by
      intro fuel hfuel
      obtain ⟨fuel, rfl⟩ : ∃ fuel', fuel = fuel' + 1 := ⟨fuel - 1, by omega⟩
      rw [sendMaskedLoop, if_neg hne, htake]
      simp only [hcall, Octets.length_xorFrom]
      rw [if_pos (by omega), if_neg (by omega), Int.toNat_natCast, List.drop_length, Nat.zero_add]
      cases fuel <;> rfl
    rw [hloop _ hpos]
    exact ⟨rfl, hacc⟩
  · rw [if_neg hmask]
    obtain ⟨hr, hacc⟩ := sendCallback_accepts h ⟨iocb.data, false, true⟩ hlen
    obtain ⟨r, io₁, hcall⟩ : ∃ r io₁, io.sendCallback ⟨iocb.data, false, true⟩ = (r, io₁) :=
      ⟨_, _, rfl⟩
    rw [hcall] at hr hacc ⊢
    simp only at hr
    subst hr
    simp only
    rw [if_pos (by omega), if_neg (by omega), Int.toNat_natCast]
    exact ⟨rfl, hacc⟩

/-- The header is taken at once, and then the payload. -/
theorem fromSendHeader_accepts {c : FrameContext} {iocb : Iocb} {io : Io} {k : Nat}
    (hstate : c.ostate = .sendHeader) (hmark : c.oheadermark = 0) (hhead : 0 < c.oheader.length)
    (hlong : c.oheader.length ≤ 4096) (hne : iocb.data ≠ []) (hlen : iocb.data.length ≤ 4096)
    (h : io.Accepts (k + 2)) :
    (fromSendHeader c iocb io).1 = .ok iocb.data.length ∧
      (fromSendHeader c iocb io).2.2.Accepts k := by
  have hrest : c.oheaderRest = c.oheader := by
    rw [FrameContext.oheaderRest, hmark, List.drop_zero]
  obtain ⟨hr, hacc⟩ := sendCallback_accepts h
    ⟨c.oheader, decide (iocb.data ≠ []), false⟩ hlong
  obtain ⟨r, io₁, hcall⟩ : ∃ r io₁, io.sendCallback
      ⟨c.oheader, decide (iocb.data ≠ []), false⟩ = (r, io₁) := ⟨_, _, rfl⟩
  rw [hcall] at hr hacc
  simp only at hr
  subst hr
  have hsent : sendHeader c iocb io =
      (none, { c with oheadermark := c.oheader.length, ostate := .sendPayload }, io₁) := by
    rw [sendHeader, if_pos hstate, hrest]
    simp only [hcall, hmark, Nat.zero_add]
    rw [if_pos (by omega), if_neg (by omega), Int.toNat_natCast, if_pos rfl]
  obtain ⟨hdata, hacc'⟩ := sendData_accepts
    { c with oheadermark := c.oheader.length, ostate := .sendPayload } hne hlen hacc
  rw [fromSendHeader, hsent]
  simp only
  rw [sendPayload, if_pos rfl]
  obtain ⟨res, c₂, io₂, hdcall⟩ : ∃ res c₂ io₂, sendData
      { c with oheadermark := c.oheader.length, ostate := .sendPayload } iocb io₁ =
        (res, c₂, io₂) := ⟨_, _, _, rfl⟩
  rw [hdcall] at hdata hacc' ⊢
  simp only at hdata
  subst hdata
  simp only
  split_ifs <;> exact ⟨rfl, hacc'⟩

theorem length_encode_le (h : Header) : h.encode.length ≤ 14 ∧ 0 < h.encode.length := by
  have hkey : h.keyOctets.length ≤ 4 := by
    unfold Header.keyOctets
    cases h.key <;> simp
  have hlen : h.lengthOctets.length ≤ 9 := by
    unfold Header.lengthOctets
    split_ifs <;> simp
  rw [Header.encode, List.length_append, List.length_cons]
  omega

/-- **A fragment is sent at once.** -/
theorem frameSend_accepts {c : FrameContext} {iocb : Iocb} {io : Io} {k : Nat}
    (hstate : c.ostate = .prepHeader) (hfit : iocb.payloadLength = iocb.data.length)
    (hctrl : isCtrlFrame iocb.opcode = false) (hne : iocb.data ≠ [])
    (hlen : iocb.data.length ≤ 4096) (h : io.Accepts (k + 2)) :
    (frameSend c iocb io).1 = .ok iocb.data.length ∧ (frameSend c iocb io).2.2.Accepts k := by
  have hsendable : iocb.Sendable := by
    refine ⟨by omega, fun hc => ?_⟩
    rw [hctrl] at hc
    cases hc
  have hgo : ∀ key io₁, io₁.Accepts (k + 2) →
      (fromSendHeader (c.prepared iocb key) iocb io₁).1 = .ok iocb.data.length ∧
        (fromSendHeader (c.prepared iocb key) iocb io₁).2.2.Accepts k := by
    intro key io₁ h₁
    obtain ⟨hle, hpos⟩ := length_encode_le (iocb.header key)
    exact fromSendHeader_accepts rfl rfl hpos (Nat.le_trans hle (by decide)) hne hlen h₁
  rw [frameSend_eq (Nat.le_of_eq hfit.symm)]
  rcases sendPrepHeader_spec hstate iocb io with ⟨hno, -⟩ | ⟨-, ⟨hmask, hgen, -⟩ |
    ⟨hmask, heq⟩ | ⟨key, io₁, hmask, hgen, heq⟩⟩
  · exact absurd hsendable hno
  · -- there is a key
    refine absurd hgen ?_
    unfold Io.genmaskCallback
    cases hm : io.masks with
    | nil => simp
    | cons x xs =>
      intro hx
      simp only at hx
      exact h.masks (by rw [hm, hx]; exact List.mem_cons_self ..)
  · rw [heq]
    exact hgo none io h
  · rw [heq]
    refine hgo (some key) io₁ (h.congr ?_ ?_)
    · have := congrArg (fun x => x.2.sends) hgen
      simp only at this
      rw [← this, Io.genmaskCallback]
      cases io.masks <;> rfl
    · intro x hx
      have hio : io₁ = io.genmaskCallback.2 := by rw [hgen]
      rw [hio, Io.genmaskCallback] at hx
      cases hm : io.masks with
      | nil =>
        rw [hm] at hx
        simp only at hx
        rwa [hm] at hx
      | cons y ys =>
        rw [hm] at hx
        exact List.mem_cons_of_mem _ hx

/-! ## One pass -/

/-- The next pass goes on with the fragmented message `m`, which is asked for a
chunk; the messages `rest` wait behind it. -/
structure InLine (s : EventContext × Io) (m : EventOmsg) (rest : List EventOmsg) : Prop where
  place : s.1.omsg = none ∧ s.1.sendQueue = m :: rest ∨ s.1.omsg = some m ∧ s.1.sendQueue = rest
  ctrl : s.1.sendCtrlQueue = []
  live : s.1.writeEnabled = true
  type : m.type = .fragmented
  fin : m.fin = 0
  data : isCtrlFrame m.opcode = false
  state : s.1.frameCtx.ostate = .prepHeader
  obuf : s.1.obuf = []
  mark : s.1.obufmark = 0
  role : s.1.server = true → s.1.frameCtx.effKey = none

theorem InLine.wantWrite {s : EventContext × Io} {m : EventOmsg} {rest : List EventOmsg}
    (h : InLine s m rest) : eventWantWrite s.1 = true := by
  unfold eventWantWrite
  rcases h.place with ⟨-, hqueue⟩ | ⟨homsg, -⟩
  · rw [h.live, hqueue]
    rfl
  · rw [h.live, homsg]
    simp

theorem InLine.pick {s : EventContext × Io} {m : EventOmsg} {rest : List EventOmsg}
    (h : InLine s m rest) :
    sendPick s.1 s.2 = .again ({ s.1 with omsg := some m, sendQueue := rest }, s.2) := by
  obtain ⟨c, io⟩ := s
  have hctrl : c.sendCtrlQueue = [] := h.ctrl
  unfold sendPick
  rcases h.place with ⟨homsg, hqueue⟩ | ⟨homsg, hqueue⟩
  · change c.omsg = none at homsg
    change c.sendQueue = m :: rest at hqueue
    rw [homsg]
    simp only [hctrl, hqueue, if_true, h.type, if_neg (by simp : ¬ MsgType.fragmented = .nonFragmented)]
  · change c.omsg = some m at homsg
    change c.sendQueue = rest at hqueue
    have heq : { c with omsg := some m, sendQueue := rest } = c := by rw [← homsg, ← hqueue]
    rw [heq, homsg]
    simp only [hctrl, ne_eq, not_true_eq_false, decide_false, Bool.and_false, Bool.false_eq_true,
      if_false]

/-- The pass asks the `read_callback` of the message. -/
theorem InLine.sendPass_eq {s : EventContext × Io} {m : EventOmsg} {rest : List EventOmsg}
    (h : InLine s m rest) :
    sendPass s = (readFragment { s.1 with omsg := some m, sendQueue := rest } m s.2).andThen
      fun t => match t.1.omsg with
        | some m => sendFragment t.1 m t.2
        | none => .leave 0 t := by
  rw [sendPass, if_pos h.wantWrite, h.pick, Step.andThen_again, sendOmsg]
  simp only [h.type, if_neg (by simp : ¬ MsgType.fragmented = .nonFragmented)]
  rw [sendFragmented]
  exact if_pos ⟨h.fin, by simp [h.obuf, h.mark]⟩

/-- **An empty chunk is taken for a pause**, whatever `eof` says. -/
theorem InLine.pause {s : EventContext × Io} {m : EventOmsg} {rest : List EventOmsg}
    (h : InLine s m rest) {eof : Bool} {fits : ([] : List UInt8).length ≤ 4096}
    {rs : List ReadResult} (hsource : m.source = .data [] eof fits :: rs) :
    ∃ c', sendPass s = .leave 0 (c', s.2) ∧ InLine (c', s.2) { m with source := rs } rest ∧
      c'.queuedMsgCount = s.1.queuedMsgCount ∧ c'.server = s.1.server := by
  refine ⟨{ s.1 with omsg := some { m with source := rs }, sendQueue := rest }, ?_,
    ⟨Or.inr ⟨rfl, rfl⟩, h.ctrl, h.live, h.type, h.fin, h.data, h.state, h.obuf, h.mark, h.role⟩,
    rfl, rfl⟩
  rw [h.sendPass_eq, readFragment, hsource]
  rfl

/-- **A chunk is sent as one fragment**, at once.  With the last fragment the
message is done. -/
theorem InLine.chunk {s : EventContext × Io} {m : EventOmsg} {rest : List EventOmsg}
    (h : InLine s m rest) {bs : List UInt8} {eof : Bool} {fits : bs.length ≤ 4096}
    {rs : List ReadResult} (hsource : m.source = .data bs eof fits :: rs) (hne : bs ≠ []) {k : Nat}
    (hacc : s.2.Accepts (k + 2)) :
    ∃ (f : Frame) (c' : EventContext) (io' : Io), sendPass s = .again (c', io') ∧
      f.outline = ⟨eof, wireOpcode m.opcode, bs⟩ ∧ f.Legit s.1.server ∧
      io'.wire = s.2.wire ++ f.encode ∧ io'.Accepts k ∧ c'.server = s.1.server ∧
      if eof then
        c'.omsg = none ∧ c'.sendQueue = rest ∧ c'.sendCtrlQueue = [] ∧ c'.writeEnabled = true ∧
          c'.queuedMsgCount = s.1.queuedMsgCount - 1
      else
        InLine (c', io') { m with source := rs, opcode := continuationFrame } rest ∧
          c'.queuedMsgCount = s.1.queuedMsgCount := by
  -- the context and the message once the chunk is in the buffer
  obtain ⟨m', hm'⟩ : ∃ m' : EventOmsg,
    { m with source := rs, fin := if eof = true then 1 else m.fin } = m' := ⟨_, rfl⟩
  obtain ⟨c, hc⟩ : ∃ c : EventContext,
      { s.1 with
        omsg := some m', sendQueue := rest, obuf := bs, opayloadlen := bs.length,
        opayloadoff := 0 } = c := ⟨_, rfl⟩
  have hread : sendPass s = sendFragment c m' s.2 := by
    rw [h.sendPass_eq, readFragment, hsource]
    simp only [if_neg hne, Step.andThen_again]
    rw [hm', hc]
  have hdata : (fragmentIocb c m').data = bs := by
    rw [← hc, fragmentIocb]
    simp only [h.mark, List.drop_zero]
  have hheader : ∀ key, (fragmentIocb c m').header key =
      ((⟨eof, wireOpcode m.opcode, bs⟩ : Outline).frame key).header := by
    intro key
    rw [← hm', ← hc, fragmentIocb, h.fin]
    cases eof <;> rfl
  have hopcode : (fragmentIocb c m').opcode = m.opcode := by rw [← hm', fragmentIocb]
  have hplen : (fragmentIocb c m').payloadLength = bs.length := by rw [← hc, fragmentIocb]
  have hstate : c.frameCtx.ostate = .prepHeader := by
    rw [← hc]
    exact h.state
  have hrole : c.server = true → c.frameCtx.effKey = none := by
    rw [← hc]
    exact h.role
  have houtline : (⟨eof, wireOpcode m.opcode, bs⟩ : Outline).isCtrl = false := by
    rw [← h.data, isCtrlFrame_eq, Outline.isCtrl]
  obtain ⟨hok, hacc'⟩ := frameSend_accepts hstate (by rw [hplen, hdata])
    (by rw [hopcode]; exact h.data) (by rw [hdata]; exact hne) (by rw [hdata]; exact fits) hacc
  have hbegin := frameSend_begin (fragmentIocb c m') hstate hrole hheader hdata rfl
    (by rw [houtline, hopcode]; exact h.data) (by simp [houtline]) s.2
  rw [hdata] at hok
  obtain ⟨r, f₁, io₁, hcall⟩ : ∃ r f₁ io₁,
    frameSend c.frameCtx (fragmentIocb c m') s.2 = (r, f₁, io₁) := ⟨_, _, _, rfl⟩
  rw [hcall] at hok hacc' hbegin
  simp only at hok hacc'
  subst hok
  rcases hbegin with ⟨-, heq⟩ | ⟨io', -, -, heq⟩ | ⟨f, hf, hlegit, hd⟩
  · cases heq
  · cases heq
  cases hd with
  | part k' hrest bs' _ _ _ hres =>
    rcases hres with ⟨heq, hne'⟩ | ⟨heq, -⟩
    · cases heq
      exact absurd (Nat.zero_add _) hne'
    · cases heq
  | done _ _ hstate₁ hkey₁ hwire₁ _ =>
    have hserver : c.server = s.1.server := by rw [← hc]
    have hrole₁ : s.1.server = true → f₁.effKey = none := by
      intro hs
      have hmask := hlegit.mask
      rw [hserver, hs] at hmask
      rw [hkey₁]
      exact Option.not_isSome_iff_eq_none.1 (by rw [hmask]; simp)
    have hend : c.obufmark + bs.length = c.obuf.length := by
      rw [← hc]
      simp [h.mark]
    have hfin' : m'.fin = if eof = true then 1 else 0 := by rw [← hm', h.fin]
    rw [hread, sendFragment, hcall]
    simp only [if_pos hend, hfin']
    cases eof with
    | true =>
      simp only [if_true]
      refine ⟨f, _, io₁, if_pos (by decide), hf, hserver ▸ hlegit, hwire₁, hacc', hserver, rfl, ?_⟩
      rw [← hc]
      exact ⟨rfl, h.ctrl, h.live, rfl⟩
    | false =>
      simp only [Bool.false_eq_true, if_false]
      refine ⟨f, _, io₁, if_neg (by decide), hf, hserver ▸ hlegit, hwire₁, hacc', hserver, ?_, ?_⟩
      · rw [← hc, ← hm']
        exact ⟨Or.inr ⟨by simp [h.fin], rfl⟩, h.ctrl, h.live, h.type, h.fin, continuation_isData, hstate₁,
          rfl, rfl, hrole₁⟩
      · rw [← hc]

/-! ## The whole message -/

/-- `t` is where a pass begins when `wslay_event_send` goes on from `s`, and is
called again as long as `wslay_event_want_write` holds. -/
inductive Onward (s : EventContext × Io) : EventContext × Io → Prop
  | refl : Onward s s
  | pass {t u : EventContext × Io} : Onward s t → sendPass t = .again u → Onward s u
  | call {t : EventContext × Io} : Onward s t →
      eventWantWrite (eventSend t.1 t.2).2.1 = true → Onward s (eventSend t.1 t.2).2

theorem Onward.trans {s t u : EventContext × Io} (h : Onward s t) (h' : Onward t u) :
    Onward s u := by
  induction h' with
  | refl => exact h
  | pass _ hpass ih => exact ih.pass hpass
  | call _ hwant ih => exact ih.call hwant

/-- A call that a pass leaves, and the next call. -/
theorem Onward.of_leave {s t : EventContext × Io} {r : Int} (h : sendPass s = .leave r t)
    (hwant : eventWantWrite t.1 = true) : Onward s t := by
  have hsend : eventSend s.1 s.2 = (r, t.1, t.2) := by
    rw [eventSend, show sendFuel s.1 = _ + 1 from rfl, Loop.run_succ_leave h]
    rfl
  have heq : (eventSend s.1 s.2).2 = t := by rw [hsend]
  have := Onward.call (.refl (s := s)) (by rw [heq]; exact hwant)
  rwa [heq] at this

theorem Onward.accounted {s t : EventContext × Io} (h : Onward s t) (hs : Accounted s) :
    Accounted t := by
  induction h with
  | refl => exact hs
  | pass _ hpass ih =>
    obtain ⟨sent, owed, data, ctrl, ha⟩ := ih
    have := ha.sendPass
    rwa [hpass] at this
  | call _ _ ih => exact accounted_kept.call (a := .send) trivial ih

/-- The octets that calls of a `read_callback` store. -/
def storedOctets (rs : List ReadResult) : List UInt8 :=
  rs.flatMap fun
    | .data bs _ _ => bs
    | .fail _ => []

/-- The frames `fs` are a fragmented message with this opcode and content: the
last of them and only the last has `fin` set. -/
structure CarriesMessage (opcode : UInt8) (content : List UInt8) (fs : List Frame) : Prop where
  content : fs.flatMap Frame.payload = content
  opcodes : fs.map Frame.opcode =
    wireOpcode opcode :: List.replicate (fs.length - 1) (wireOpcode continuationFrame)
  fins : fs.map Frame.fin = List.replicate (fs.length - 1) false ++ [true]

/-- In `t` the message that was next in `s` is gone.  Since `s` it has been sent
with the content `stored`, and the first of the messages `rest` is what is sent
next. -/
structure MessageDone (s : EventContext × Io) (m : EventOmsg) (stored : List UInt8)
    (rest : List EventOmsg) (t : EventContext × Io) : Prop where
  gone : t.1.omsg = none ∧ t.1.sendQueue = rest
  count : t.1.queuedMsgCount = s.1.queuedMsgCount - 1
  sent : ∃ fs, t.2.wire = s.2.wire ++ fs.flatMap Frame.encode ∧
    (∀ f ∈ fs, f.Legit s.1.server) ∧ CarriesMessage m.opcode stored fs
  next : ∀ m' rest', rest = m' :: rest' → eventWantWrite t.1 = true ∧
    ∃ u, sendPick t.1 t.2 = .again u ∧ u.1.omsg = some m' ∧ u.1.sendQueue = rest'

/-- The fragmented message `m` is what `wslay_event_send` goes on with, and the
messages `rest` wait behind it. -/
structure Serves (s : EventContext × Io) (m : EventOmsg) (rest : List EventOmsg) : Prop where
  place : s.1.omsg = none ∧ s.1.sendQueue = m :: rest ∨
    s.1.omsg = some m ∧ s.1.frameCtx.ostate = .prepHeader ∧ s.1.sendQueue = rest
  ctrl : s.1.sendCtrlQueue = []
  live : s.1.writeEnabled = true
  type : m.type = .fragmented

theorem Serves.inLine {s : EventContext × Io} {m : EventOmsg} {rest : List EventOmsg}
    (h : Serves s m rest) (ha : Accounted s) : InLine s m rest ∧ ∀ m' ∈ rest, m'.FitData := by
  obtain ⟨sent, owed, data, ctrl, ha⟩ := ha
  obtain ⟨hand, hh, -, hfit, -⟩ := ha.live h.live
  rcases h.place with ⟨homsg, hqueue⟩ | ⟨homsg, hstate, hqueue⟩
  · have hm : m.FitData := hfit.data m (by rw [hqueue]; exact List.mem_cons_self ..)
    have hfin : m.fin = 0 := by
      rcases hm.2 with ⟨htype, -⟩ | ⟨-, hfin⟩
      · rw [h.type] at htype
        cases htype
      · exact hfin
    rw [hh.omsg_eq_none.1 homsg] at hh
    cases hh with
    | empty _ hstate hobuf hmark =>
      exact ⟨⟨Or.inl ⟨homsg, hqueue⟩, h.ctrl, h.live, h.type, hfin, hm.1, hstate, hobuf, hmark,
        hfit.role⟩, fun m' hm' => hfit.data m' (by rw [hqueue]; exact List.mem_cons_of_mem _ hm')⟩
  · have hrest : ∀ m' ∈ rest, m'.FitData := fun m' hm' => hfit.data m' (hqueue ▸ hm')
    cases hh with
    | empty h₁ =>
      rw [homsg] at h₁
      cases h₁
    | start m₁ h₁ hwhole =>
      rw [homsg] at h₁
      cases h₁
      have := hwhole.1
      rw [h.type] at this
      cases this
    | between m₁ h₁ _ hfin hdata _ hobuf hmark =>
      rw [homsg] at h₁
      cases h₁
      exact ⟨⟨Or.inr ⟨homsg, hqueue⟩, h.ctrl, h.live, h.type, hfin, hdata, hstate, hobuf, hmark,
        hfit.role⟩, hrest⟩
    | whole m₁ hrest' _ _ hview => exact absurd hstate hview.ostate_ne
    | fragment m₁ hrest' _ _ _ _ hview => exact absurd hstate hview.ostate_ne

theorem Io.Accepts.mono {io : Io} {k j : Nat} (h : io.Accepts k) (hj : j ≤ k) : io.Accepts j where
  enough := Nat.le_trans hj h.enough
  sends := fun r hr => h.sends r (List.take_subset_take_left _ hj hr)
  masks := h.masks

theorem CarriesMessage.cons {opcode : UInt8} {content bs : List UInt8} {f : Frame}
    {fs : List Frame} (h : CarriesMessage continuationFrame content fs)
    (hf : f.outline = ⟨false, wireOpcode opcode, bs⟩) :
    CarriesMessage opcode (bs ++ content) (f :: fs) := by
  obtain ⟨g, gs, rfl⟩ : ∃ g gs, fs = g :: gs := by
    cases fs with
    | nil => cases h.opcodes
    | cons g gs => exact ⟨g, gs, rfl⟩
  have hfin : f.fin = false := congrArg Outline.fin hf
  have hop : f.opcode = wireOpcode opcode := congrArg Outline.opcode hf
  have hpay : f.payload = bs := congrArg Outline.payload hf
  refine ⟨by rw [List.flatMap_cons, hpay, h.content], ?_, ?_⟩
  · rw [List.map_cons, h.opcodes, hop]
    simp [List.replicate_succ]
  · rw [List.map_cons, h.fins, hfin]
    simp [List.replicate_succ]

theorem CarriesMessage.last {opcode : UInt8} {bs : List UInt8} {f : Frame}
    (hf : f.outline = ⟨true, wireOpcode opcode, bs⟩) : CarriesMessage opcode bs [f] := by
  have hfin : f.fin = true := congrArg Outline.fin hf
  have hop : f.opcode = wireOpcode opcode := congrArg Outline.opcode hf
  have hpay : f.payload = bs := congrArg Outline.payload hf
  exact ⟨by simp [hpay], by simp [hop], by simp [hfin]⟩

/-- Chunk after chunk is sent up to the last one, which ends the message. -/
theorem InLine.done {pre : List ReadResult} {s : EventContext × Io} {m : EventOmsg}
    {rest : List EventOmsg} (h : InLine s m rest) (hrest : ∀ m' ∈ rest, m'.FitData)
    {bs : List UInt8} {fits : bs.length ≤ 4096} {post : List ReadResult}
    (hsource : m.source = pre ++ .data bs true fits :: post)
    (hpre : ∀ r ∈ pre, ∃ cs hcs, r = .data cs false hcs) (hne : bs ≠ [])
    (hacc : s.2.Accepts (2 * (pre.length + 1))) :
    ∃ t₀ m₀ t, Onward s t₀ ∧ InLine t₀ m₀ rest ∧ m₀.source = .data bs true fits :: post ∧
      sendPass t₀ = .again t ∧ MessageDone s m (storedOctets pre ++ bs) rest t := by
  induction pre generalizing s m with
  | nil =>
    obtain ⟨f, c', io', hpass, hf, hlegit, hwire, -, -, homsg, hqueue, hctrl, hlive, hcount⟩ :=
      h.chunk hsource hne hacc
    refine ⟨s, m, (c', io'), .refl, h, hsource, hpass, ⟨homsg, hqueue⟩, hcount, ⟨[f], ?_, ?_, ?_⟩, ?_⟩
    · simpa using hwire
    · intro g hg
      rw [List.mem_singleton.1 hg]
      exact hlegit
    · exact .last hf
    · rintro m' rest' rfl
      have hm' := hrest m' (List.mem_cons_self ..)
      refine ⟨by simp [eventWantWrite, hlive, hqueue], ?_⟩
      unfold sendPick
      simp only [homsg, hctrl, if_true, hqueue]
      rcases hm'.2 with ⟨htype, hfin⟩ | ⟨htype, -⟩
      · rw [if_pos htype]
        refine ⟨_, rfl, ?_, rfl⟩
        show some { m' with fin := 1 } = some m'
        rw [← hfin]
      · rw [if_neg (by rw [htype]; decide)]
        exact ⟨_, rfl, rfl, rfl⟩
  | cons r pre ih =>
    obtain ⟨cs, hcs, rfl⟩ := hpre r (List.mem_cons_self ..)
    have hpre' : ∀ r ∈ pre, ∃ cs hcs, r = .data cs false hcs :=
      fun r hr => hpre r (List.mem_cons_of_mem _ hr)
    by_cases hnil : cs = []
    · -- a pause: the call returns, and the next one goes on
      subst hnil
      obtain ⟨c', hpass, hline, hcount, hserver⟩ := h.pause hsource
      obtain ⟨t₀, m₀, t, hon, hline₀, hsource₀, hpass₀, hdone⟩ :=
        ih hline rfl hpre' (hacc.mono (by rw [List.length_cons]; omega))
      refine ⟨t₀, m₀, t, (Onward.of_leave hpass hline.wantWrite).trans hon, hline₀, hsource₀, hpass₀,
        hdone.gone, hdone.count.trans (by rw [hcount]), ?_, hdone.next⟩
      obtain ⟨fs, hwire, hlegit, hcarry⟩ := hdone.sent
      exact ⟨fs, hwire, fun f hf => hserver ▸ hlegit f hf, hcarry⟩
    · have hacc' : s.2.Accepts (2 * (pre.length + 1) + 2) :=
        hacc.mono (by rw [List.length_cons]; omega)
      obtain ⟨f, c', io', hpass, hf, hlegit, hwire, hacc₁, hserver, hline, hcount⟩ :=
        h.chunk hsource hnil hacc'
      obtain ⟨t₀, m₀, t, hon, hline₀, hsource₀, hpass₀, hdone⟩ := ih hline rfl hpre' hacc₁
      refine ⟨t₀, m₀, t, (Onward.refl.pass hpass).trans hon, hline₀, hsource₀, hpass₀,
        hdone.gone, hdone.count.trans (by rw [hcount]), ?_, hdone.next⟩
      obtain ⟨fs, hwire', hlegit', hcarry⟩ := hdone.sent
      refine ⟨f :: fs, ?_, ?_, ?_⟩
      · rw [hwire', hwire, List.flatMap_cons, List.append_assoc]
      · intro g hg
        rcases List.mem_cons.1 hg with rfl | hg
        · exact hlegit
        · exact hserver ▸ hlegit' g hg
      · have hcons := hcarry.cons hf
        rwa [← List.append_assoc] at hcons

/-- **When the end of file ends a fragmented message.**  Take any state that a
run comes to, between two calls or between two passes, in which the message `m`
is what is sent next.  Its `read_callback` gives the chunks `pre`, some of them
perhaps empty, and then sets `eof` together with the chunk `bs`; `post` is what it
would give if it were called once more.  With a `send_callback` that accepts
everything, `wslay_event_send` comes to the call that sets `eof`, and with this
call the message is done, if and only if `bs` is not empty. -/
theorem eof_ends_iff (server : Bool) (callbacks : EventCallbacks) (noBuffering : Bool)
    (maxRecvMsgLength : Nat) {io : Io} (hio : io.Fresh) {ops : List Op} {s : EventContext × Io}
    (hs : s = runOps (configured server callbacks noBuffering maxRecvMsgLength, io) ops ∨
      SendsFrom (configured server callbacks noBuffering maxRecvMsgLength, io) ops s)
    {m : EventOmsg} {rest : List EventOmsg} (hserves : Serves s m rest) {pre : List ReadResult}
    {bs : List UInt8} {fits : bs.length ≤ 4096} {post : List ReadResult}
    (hsource : m.source = pre ++ .data bs true fits :: post)
    (hpre : ∀ r ∈ pre, ∃ cs hcs, r = .data cs false hcs)
    (hacc : s.2.Accepts (2 * (pre.length + 1))) :
    (∃ t₀ m₀ t, Onward s t₀ ∧ Serves t₀ m₀ rest ∧ m₀.source = .data bs true fits :: post ∧
        sendPass t₀ = .again t ∧ MessageDone s m (storedOctets pre ++ bs) rest t) ↔ bs ≠ [] := by
  have ha : Accounted s := by
    have hfresh := accounted_configured server callbacks noBuffering maxRecvMsgLength hio
    rcases hs with rfl | ⟨before, -, hreach⟩
    · exact accounted_kept.runOps hfresh fun _ _ => trivial
    · refine hreach.inv ?_ (accounted_kept.runOps hfresh fun _ _ => trivial)
      rintro a b ⟨sent, owed, data, ctrl, ha⟩ heq
      have := ha.sendPass
      rwa [heq] at this
  obtain ⟨hline, hrest⟩ := hserves.inLine ha
  constructor
  · rintro ⟨t₀, m₀, t, hon, hserves₀, hsource₀, hpass, -⟩ rfl
    -- the call that sets `eof` is taken for a pause
    obtain ⟨c', hpause, -⟩ := (hserves₀.inLine (hon.accounted ha)).1.pause hsource₀
    rw [hpause] at hpass
    cases hpass
  · intro hne
    obtain ⟨t₀, m₀, t, hon, hline₀, hrest₀⟩ := hline.done hrest hsource hpre hne hacc
    exact ⟨t₀, m₀, t, hon, ⟨hline₀.place.imp_right fun h => ⟨h.1, hline₀.state, h.2⟩, hline₀.ctrl,
      hline₀.live, hline₀.type⟩, hrest₀⟩

/-- A text in two chunks with a pause in between, and a message behind it. -/
def pausedText : EventMsg × EventFragmentedMsg :=
  (⟨binaryFrame, [9]⟩, ⟨textFrame, [.data [1] false (by decide), .data [] false (by decide),
    .data [2] true (by decide)]⟩)

def pausedOps : List Op :=
  [.call (.queueFragmentedMsg pausedText.2), .call (.queueMsg pausedText.1)]

def pausedIo : Io := { sends := List.replicate 8 (.accept 5000) }

theorem eof_ends_iff_pausedText :
    ∃ t₀ m₀ t, Onward (runOps (configured true ⟨false, false, false, false⟩ false 100, pausedIo)
        pausedOps) t₀ ∧ Serves t₀ m₀ [⟨1, binaryFrame, .nonFragmented, [9], []⟩] ∧
      m₀.source = [.data [2] true (by decide)] ∧ sendPass t₀ = .again t ∧
      MessageDone (runOps (configured true ⟨false, false, false, false⟩ false 100, pausedIo)
        pausedOps) ⟨0, textFrame, .fragmented, [], pausedText.2.source⟩ [1, 2]
        [⟨1, binaryFrame, .nonFragmented, [9], []⟩] t := by
  have hio : pausedIo.Fresh := ⟨rfl, rfl, rfl, rfl, rfl, rfl⟩
  have hserves : Serves (runOps (configured true ⟨false, false, false, false⟩ false 100, pausedIo)
      pausedOps) ⟨0, textFrame, .fragmented, [], pausedText.2.source⟩
      [⟨1, binaryFrame, .nonFragmented, [9], []⟩] :=
    ⟨Or.inl ⟨rfl, rfl⟩, rfl, rfl, rfl⟩
  have hsource : pausedText.2.source = [.data [1] false (by decide), .data [] false (by decide)] ++
      .data [2] true (by decide) :: [] := rfl
  refine (eof_ends_iff true ⟨false, false, false, false⟩ false 100 hio (Or.inl rfl) hserves hsource
    ?_ ?_).2 (by decide)
  · intro r hr
    simp only [List.mem_cons, List.not_mem_nil, or_false] at hr
    rcases hr with rfl | rfl
    · exact ⟨[1], by decide, rfl⟩
    · exact ⟨[], by decide, rfl⟩
  · refine ⟨by decide, fun r hr => ⟨5000, ?_, by decide⟩, by decide⟩
    exact List.eq_of_mem_replicate (List.mem_of_mem_take hr)

/-- A text whose end is reported in a call of its own, and what the callback
would give if it were called again. -/
def lateEof : EventFragmentedMsg :=
  ⟨textFrame, [.data [1] false (by decide), .data [] true (by decide), .data [] true (by decide)]⟩

/-- The server after it has queued the text and called `wslay_event_send` that
many times. -/
def lateEofAfter (calls : Nat) : EventContext × Io :=
  runOps (configured true ⟨false, false, false, false⟩ false 100,
    { sends := List.replicate 8 (.accept 5000) })
    (.call (.queueFragmentedMsg lateEof) :: List.replicate calls (.call .send))

/-- After `eof` has been set the callback is called once more, and nothing ends
the message. -/
theorem lateEof_goes_on :
    (lateEofAfter 1).1.omsg.map EventOmsg.source = some [.data [] true (by decide)] ∧
      (lateEofAfter 2).1.omsg.map EventOmsg.source = some [] ∧
      (lateEofAfter 3).2.wire = [0x01, 1, 1] ∧ eventWantWrite (lateEofAfter 3).1 = true ∧
      (lateEofAfter 3).1.queuedMsgCount = 1 := by
  decide +kernel

end Wslay
