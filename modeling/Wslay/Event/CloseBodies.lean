import Wslay.Event.Fronts
import Wslay.Event.Protocol

/-!
# Which Close bodies are accepted

A Close whose octets come in one result of `recv_callback` is taken in one piece, so
that the checks of its text and of its status code see the whole of the body.

* `AllowedBody` — the bodies that a Close may have.
* `Unheard` — while reading goes on no Close has been received.
* `frameRecv_fetch` — what one result of `recv_callback` brings.
* `CloseFrame.piece` — what the receiver makes of the body.
* `close_judged_iff` — the result.
-/

namespace Wslay

open Loop (Step)
open Octets (beBytes beVal beBytes_beVal length_beBytes beVal_lt)
open Utf8 (read WellFormed)

/-! ## While reading goes on -/

/-- While reading goes on no Close has been received. -/
def Unheard (s : EventContext × Io) : Prop :=
  s.1.readEnabled = true → s.1.closeStatus.received = false

section

variable {cfg : RxConfig} {s s' : EventContext × Io}

theorem Unheard.of_off (hoff : s.1.readEnabled = false) : Unheard s := by
  intro hon
  rw [hoff] at hon
  cases hon

theorem Unheard.spares (hs : Unheard s) (h : Spares s s') : Unheard s' := by
  intro hon
  have hc := h.context
  simp only [EventContext.rxPart, Prod.mk.injEq] at hc
  obtain ⟨-, -, -, -, -, hreceived, -⟩ := hc
  exact hreceived.trans (hs (h.enabled hon))

theorem Unheard.works {calls : List Call} (hs : Unheard s) (h : Works s s' calls) : Unheard s' :=
  fun hon => h.heard.trans (hs (h.enabled hon))

theorem Unheard.reply (hs : Unheard s) (opcode : Fin 16) (msg : List UInt8) :
    (recvReply opcode msg s).All Unheard := by
  by_cases h8 : opcode = 8
  · -- a Close shuts reading down
    have hoff := (eventQueueCloseWrapper_spares (noteClose msg s).1 (UInt16.ofNat (statusOf msg))
      (msg.drop 2) s.2).2
    rw [recvReply, if_pos h8, acceptClose]
    unfold noteClose at hoff
    obtain ⟨r, c, io, heq⟩ : ∃ r c io, eventQueueCloseWrapper { s.1 with
        closeStatus := { s.1.closeStatus with received := true }
        statusCodeRecv := if statusOf msg = 0 then codeNoStatusRcvd else statusOf msg }
      (UInt16.ofNat (statusOf msg)) (msg.drop 2) s.2 = (r, c, io) := ⟨_, _, _, rfl⟩
    rw [heq] at hoff ⊢
    simp only
    split_ifs <;> exact .of_off hoff
  · rw [recvReply, if_neg h8]
    by_cases h9 : opcode = 9
    · have hq := hs.spares (eventQueueMsg_spares s.1 ⟨pong, msg⟩ s.2)
      rw [if_pos h9, recvPing]
      obtain ⟨r, c, io, heq⟩ : ∃ r c io, eventQueueMsg s.1 ⟨pong, msg⟩ s.2 = (r, c, io) :=
        ⟨_, _, _, rfl⟩
      rw [heq] at hq ⊢
      simp only
      split_ifs
      · exact .of_off rfl
      · exact hq
    · rw [if_neg h9]
      exact hs

theorem Unheard.outcome {x : Step (EventContext × Io) Int} {R : Reaction} (hs : Unheard s)
    (h : Outcome cfg s x R) : x.All Unheard := by
  unfold Outcome at h
  cases hv : R.verdict with
  | more rx =>
    rw [hv] at h
    obtain ⟨s', rfl, hw, -⟩ := h
    exact hs.works hw
  | reject code =>
    rw [hv] at h
    obtain ⟨s', rfl, -⟩ := h
    obtain ⟨r, s'', heq, -, hoff⟩ := failWith_leave code s'
    rw [heq]
    exact .of_off hoff
  | overflow =>
    rw [hv] at h
    obtain ⟨s', rfl, -⟩ := h
    exact .of_off rfl
  | done opcode msg rx =>
    rw [hv] at h
    obtain ⟨s₁, hw, hrest⟩ := h
    have hreply := (hs.works hw).reply opcode msg
    cases hr : recvReply opcode msg s₁ with
    | leave r s₂ =>
      rw [hr] at hreply hrest
      obtain rfl := hrest
      exact hreply
    | again s₂ =>
      rw [hr] at hreply hrest
      obtain ⟨s', rfl, hw', -⟩ := hrest
      exact Unheard.works hreply hw'

/-- A pass keeps it. -/
theorem Unheard.pass (hs : Unheard s) (hh : Hears cfg s) : (recvPass s).All Unheard := by
  cases hon : s.1.readEnabled with
  | false =>
    rw [recvPass_off hon]
    exact hs
  | true =>
    obtain ⟨rx, d, look, hl⟩ := hh hon
    have hfed : Unheard (fed s) := hs
    have herror : ∀ e, (recvFrameError e (fed s).1 (fed s).2).All Unheard := by
      intro e
      obtain ⟨r, s', heq, hsp, -⟩ := recvFrameError_state e (fed s).1 (fed s).2
      rw [heq]
      exact hfed.spares hsp
    obtain ⟨bs, -, -, -, ⟨d', look', -, heq, -⟩ | ⟨-, heq⟩ | ⟨h, off, hdr, raw, d', look', -, -, ht⟩⟩ :=
      recvPass_steps hl hon
    · rw [heq]
      exact herror .wantRead
    · rw [heq]
      exact herror .proto
    · rcases ht.outcome with ⟨-, r, s', heq, -, hoff, -⟩ | hout
      · rw [heq]
        exact .of_off hoff
      · exact hfed.outcome hout

end

/-- **In every state of every run** in which reading goes on no Close has been received. -/
theorem unheard_reaches (server : Bool) (callbacks : EventCallbacks) (noBuffering : Bool)
    (limit : Nat) (io : Io) (ops : List Op) {t : EventContext × Io}
    (ht : Loop.Reaches recvPass
      (runOps (configured server callbacks noBuffering limit, io) ops) t) : Unheard t := by
  obtain ⟨cfg, hcfg⟩ : ∃ cfg, cfg = RxConfig.of server callbacks noBuffering limit := ⟨_, rfl⟩
  have hboth : ∀ s, Unheard s ∧ Hears cfg s →
      (recvPass s).All fun s => Unheard s ∧ Hears cfg s := by
    rintro s ⟨hs, hh⟩
    have h₁ := hs.pass hh
    have h₂ := (recvPass_hears hh).1
    cases hx : recvPass s with
    | again u =>
      rw [hx] at h₁ h₂
      exact ⟨h₁, h₂⟩
    | leave r u =>
      rw [hx] at h₁ h₂
      exact ⟨h₁, h₂⟩
  have hstep : ∀ (s : EventContext × Io) (op : Op), True → Unheard s ∧ Hears cfg s →
      Unheard (step s op).2 ∧ Hears cfg (step s op).2 := by
    intro s op _ hs
    cases op with
    | call a =>
      have hsp := appCall_spares s.1 s.2 a
      exact ⟨hs.1.spares hsp, hs.2.spares hsp⟩
    | recv => exact Loop.run_inv hboth hs (eventRecv_run hs.2)
  have hstart : Unheard (configured server callbacks noBuffering limit, io) ∧
      Hears cfg (configured server callbacks noBuffering limit, io) :=
    ⟨fun _ => rfl, hcfg ▸ configured_hears server callbacks noBuffering limit io⟩
  have hrun : Unheard (runOps (configured server callbacks noBuffering limit, io) ops) ∧
      Hears cfg (runOps (configured server callbacks noBuffering limit, io) ops) :=
    runOps_inv hstep (fun _ _ => trivial) hstart
  refine (ht.inv (P := fun s => Unheard s ∧ Hears cfg s) (fun a b ha hab => ?_) hrun).1
  have hnext := hboth a ha
  rwa [hab] at hnext

/-! ## A frame in one piece -/

/-- The octets of a whole frame are one piece. -/
theorem takePiece_whole {f : Frame} (hv : f.header.Valid) (rest : List UInt8) :
    takePiece .head (f.encode ++ rest) = .piece f.header 0 f.payload .head rest := by
  have hlen : (f.header.mask 0 f.payload).length = f.header.length := by
    rw [Header.length_mask]
    rfl
  have hparse : parseHeader (f.encode ++ rest) =
      .header f.header (f.header.mask 0 f.payload ++ rest) := by
    rw [Frame.encode, List.append_assoc, parseHeader_encode hv]
  unfold takePiece
  simp only [hparse]
  unfold takeBody
  by_cases h0 : f.header.length = 0
  · have hnil : f.payload = [] := List.length_eq_zero_iff.1 h0
    have hmask : f.header.mask 0 [] = [] := (Header.mask_eq_nil_iff ..).2 rfl
    rw [if_pos h0, hnil, hmask, List.nil_append]
  · have hne : f.header.mask 0 f.payload ++ rest ≠ [] := by
      intro hnil
      rw [(List.append_eq_nil_iff.1 hnil).1, List.length_nil] at hlen
      exact h0 hlen.symm
    have hmin : min (f.header.mask 0 f.payload ++ rest).length (f.header.length - 0) =
        (f.header.mask 0 f.payload).length := by
      rw [List.length_append]
      omega
    rw [if_neg h0, if_neg hne]
    simp only [hmin]
    rw [List.take_left, List.drop_left, Header.mask_mask, if_pos (by omega)]

/-- The octets are in the buffer, or the buffer is empty and the next result of
`recv_callback` begins with them. -/
def FrameContext.AtHand (c : FrameContext) (io : Io) (octets : List UInt8) : Prop :=
  (∃ more, c.avail = octets ++ more) ∨
    c.avail = [] ∧ ∃ more rs, io.recvs = .data (octets ++ more) :: rs

/-- Octets that come in one result are stored at once if there is room for them. -/
theorem recvCallback_whole {io : Io} {octets more : List UInt8} {rs : List RecvResult}
    (hrecvs : io.recvs = .data (octets ++ more) :: rs) {len : Nat} (hlen : octets.length ≤ len) :
    octets <+: (io.recvCallback len).1 := by
  unfold Io.recvCallback
  rw [hrecvs]
  simp only
  split_ifs with hall
  · exact List.prefix_append _ _
  · refine List.prefix_of_prefix_length_le (List.prefix_append _ _) (List.take_prefix len _) ?_
    rw [List.length_take]
    omega

/-- What one result of `recv_callback` brings when the buffer is empty. -/
theorem frameRecv_fetch {c : FrameContext} (hw : Window c) (hstate : c.istate = .recvHeader1)
    (hreq : c.ireqread = 2) (hnil : c.avail = []) {io : Io} {octets more : List UInt8}
    {rs : List RecvResult} (hrecvs : io.recvs = .data (octets ++ more) :: rs)
    (htwo : 2 ≤ octets.length) (hsize : octets.length ≤ ibufSize) :
    ∃ bs c' io', frameRecv c io = frameRecv c' io' ∧ Refilled c io (octets ++ bs) c' io' := by
  obtain ⟨new, href, hgot, -⟩ := wslayRecv_refilled hw io
  -- the whole of the buffer is offered
  have hoffer : (wslayRecv c io).2.2 = (io.recvCallback ibufSize).2 := by
    have hempty : (if c.ibufmark ≠ 0 then shiftIbuf c else c).ibuf = [] := by
      split_ifs with hmark
      · exact hnil
      · rw [FrameContext.avail, not_not.1 hmark, List.drop_zero] at hnil
        exact hnil
    unfold wslayRecv
    simp only [hempty, List.length_nil, Nat.sub_zero]
    split_ifs <;> rfl
  obtain ⟨hdel, -⟩ := recvCallback_delivers io ibufSize
  have hnew : new = (io.recvCallback ibufSize).1 := by
    have h := href.delivers.received
    rw [hoffer, hdel.received] at h
    exact (List.append_cancel_left h).symm
  obtain ⟨bs, hbs⟩ := hnew ▸ recvCallback_whole hrecvs hsize
  subst hbs
  have hne : octets ++ bs ≠ [] := by
    intro h
    rw [(List.append_eq_nil_iff.1 h).1] at htwo
    simp at htwo
  obtain ⟨hok, -⟩ := hgot.resolve_right fun h => hne h.2
  obtain ⟨e, c', io', heq⟩ : ∃ e c' io', wslayRecv c io = (e, c', io') := ⟨_, _, _, rfl⟩
  rw [heq] at href hok
  simp only at href hok
  subst hok
  refine ⟨bs, c', io', ?_, href⟩
  have hstate' : c'.istate = .recvHeader1 := by
    rw [href.rest]
    exact hstate
  have hreq' : c'.ireqread = 2 := by
    rw [href.rest]
    exact hreq
  have henough : ¬ c'.avail.length < c'.ireqread := by
    rw [href.avail, hnil, hreq', List.nil_append, List.length_append]
    omega
  have hrequire : requireIbuf c io = requireIbuf c' io' := by
    have hshort : c.avail.length < c.ireqread := by
      rw [hnil, hreq]
      decide
    rw [requireIbuf, if_pos hshort, heq, requireIbuf, if_neg henough]
    simp only [if_neg henough]
  have hheader : recvHeader1 c io = recvHeader1 c' io' := by
    rw [recvHeader1, recvHeader1, if_pos hstate, if_pos hstate', hrequire]
  rw [frameRecv, frameRecv, hheader]

section

variable {cfg : RxConfig} {t : EventContext × Io} {rx : Rx} {f : Frame} {q : Bool}

/-- The fields that a piece tells. -/
theorem Header.iocb_inj {h h' : Header} {data data' : List UInt8}
    (heq : h.iocb data = h'.iocb data') : h.fin = h'.fin ∧ h.rsv = h'.rsv ∧ h.opcode = h'.opcode ∧
      h.length = h'.length ∧ h.key.isSome = h'.key.isSome ∧ data = data' := by
  simp only [Header.iocb, Iocb.mk.injEq] at heq
  obtain ⟨hfin, hrsv, hopcode, hlength, hkey, hdata⟩ := heq
  have hfins : ∀ a b : Bool, UInt8.ofNat a.toNat = UInt8.ofNat b.toNat → a = b := by decide
  have hrsvs : ∀ a b : Fin 8, UInt8.ofNat a.val = UInt8.ofNat b.val → a = b := by decide
  exact ⟨hfins _ _ hfin, hrsvs _ _ hrsv, (ofNat_opcode_eq_iff _ _).1 hopcode, hlength, hkey, hdata⟩

/-- **A frame at hand is handed out in one piece.** -/
theorem Ready.whole {c : FrameContext} {d : Dec} {look : List UInt8} (hr : Ready c d look)
    (hstate : c.istate = .recvHeader1) {io : Io} (hat : c.AtHand io f.encode)
    (hv : f.header.Valid) (hsize : f.encode.length ≤ ibufSize) :
    (frameRecv c io).1 = .ok (f.header.iocb f.payload) := by
  -- nothing of the header has been read
  obtain ⟨rfl, rfl, hreq⟩ : d = .head ∧ look = c.avail ∧ c.ireqread = 2 := by
    cases hr.view with
    | header1 _ h => exact ⟨rfl, rfl, h⟩
    | ext b0 b1 h => rw [hstate] at h; cases h
    | maskkey g hb h => rw [hstate] at h; cases h
    | payload h off hp => have h := hp.istate; rw [hstate] at h; cases h
  -- the octets are in the buffer, or are brought there
  obtain ⟨c', io', rest, hready, hframe⟩ : ∃ c' io' rest, Ready c' .head (f.encode ++ rest) ∧
      frameRecv c io = frameRecv c' io' := by
    rcases hat with ⟨more, havail⟩ | ⟨hnil, more, rs, hrecvs⟩
    · exact ⟨c, io, more, havail ▸ hr, rfl⟩
    · have htwo : 2 ≤ f.encode.length := by
        have hlength : 0 < f.header.lengthOctets.length := by
          unfold Header.lengthOctets
          split_ifs <;> simp
        rw [Frame.encode, Header.encode, List.length_append, List.length_append, List.length_cons]
        omega
      obtain ⟨bs, c', io', hframe, href⟩ :=
        frameRecv_fetch hr.window hstate hreq hnil hrecvs htwo hsize
      have hstate' : c'.istate = .recvHeader1 := by
        rw [href.rest]
        exact hstate
      have hreq' : c'.ireqread = 2 := by
        rw [href.rest]
        exact hreq
      have havail : c'.avail = f.encode ++ bs := by
        rw [href.avail, hnil, List.nil_append]
      refine ⟨c', io', bs, ⟨href.window, ?_, trivial⟩, hframe⟩
      rw [← havail]
      exact .header1 hstate' hreq'
  rw [hframe]
  obtain ⟨bs, -, -, -, hcases⟩ := frameRecv_step hready io'
  rw [List.append_assoc, takePiece_whole hv] at hcases
  rcases hcases with ⟨-, -, d', look', hp, -⟩ | ⟨-, hp⟩ | ⟨h, off, data, d', look', hp, hok, -⟩
  · cases hp
  · cases hp
  · cases hp
    exact hok

/-- **What a pass does that is handed the whole payload of a frame.** -/
theorem Listens.takes {d : Dec} {look : List UInt8} (hl : Listens cfg t rx d look)
    (hsound : rx.Sound cfg)
    (hgiven : (frameRecv t.1.frameCtx t.2).1 = .ok (f.header.iocb f.payload))
    (hon : t.1.readEnabled = true) (happs : t.2.apps = []) (hmem : t.2.MemOk)
    (hq : eventIsMsgQueueable t.1 = q) :
    rx.frame = none ∧ ∃ h : Header, h.Valid ∧ h.fin = f.fin ∧ h.rsv = f.rsv ∧
      h.opcode = f.opcode ∧ h.length = f.payload.length ∧ h.key.isSome = f.key.isSome ∧
      Follows t (recvPass t).state ((rx.piece 2 cfg h f.payload).report q) := by
  obtain ⟨bs', hdel', -, -, hstep⟩ := frameRecv_step hl.ready t.2
  rw [hgiven] at hstep
  obtain ⟨bs, hdel, hquiet, hsend, hcases⟩ := recvPass_steps hl hon
  obtain rfl : bs' = bs := List.append_cancel_left (hdel'.received.symm.trans hdel.received)
  rcases hstep with ⟨h, -⟩ | ⟨h, -⟩ | ⟨h, off, data, d', look', hp, hok, -⟩
  · cases h
  · cases h
  · obtain ⟨hfin, hrsv, hopcode, hlength, hkey, hdata⟩ := Header.iocb_inj (Except.ok.inj hok)
    rw [hp] at hcases
    rcases hcases with ⟨_, _, h, -⟩ | ⟨h, -⟩ | ⟨_, _, hdr, raw, _, _, heq, -, ht⟩
    · cases h
    · cases h
    · simp only [Piece.piece.injEq] at heq
      obtain ⟨rfl, rfl, hraw, rfl, rfl⟩ := heq
      have hlen : raw.length = h.length := by
        have hlen := congrArg List.length hraw
        rw [Header.length_mask, ← hdata] at hlen
        exact hlen.symm.trans hlength
      have hoff : off = 0 := by
        have hfits := ht.fits
        omega
      refine ⟨?_, h, ht.valid, hfin.symm, hrsv.symm, hopcode.symm, hlength.symm, hkey.symm, ?_⟩
      · -- no octet of the frame has come before
        have hplace := hl.place
        have hstate := hl.models.state
        unfold Rx.Place at hplace
        cases hframe : rx.frame with
        | none => rfl
        | some g =>
          simp only [hframe] at hplace hstate
          rcases ht.enters with ⟨hd, -⟩ | ⟨hd, -⟩ <;> rw [hd] at hplace <;> cases hplace
          exact absurd hoff (Nat.ne_of_gt hstate.2.1)
      · obtain ⟨u, hall, -, hfate⟩ := ht.follows hdel hquiet hsend hl.place hsound happs hmem hq
        rw [← hraw, ← hdata] at hall hfate
        cases hR : ((rx.piece 2 cfg h f.payload).report q).fate with
        | live rx' =>
          rw [hR] at hfate
          rw [hfate.1]
          exact hall
        | off heard r =>
          rw [hR] at hfate
          rcases hfate with heq | ⟨heq, -⟩ <;> rw [heq]
          · exact hall
          · exact hall

end

/-! ## A Close -/

/-- The bodies that a Close may have. -/
def AllowedBody (body : List UInt8) : Prop :=
  body = [] ∨ 2 ≤ body.length ∧ eventIsValidStatusCode (beVal (body.take 2)) = true ∧
    WellFormed (body.drop 2)

/-- The frame is a Close that may come here. -/
structure CloseFrame (server : Bool) (f : Frame) : Prop where
  opcode : f.opcode = 8
  valid : f.header.Valid
  rsv : f.rsv = 0
  key : f.key.isSome = server

/-- The verdict on a Close that comes in one piece. -/
def closeVerdict (cfg : RxConfig) (waiting : Option Draft) (body : List UInt8) : Verdict :=
  if cfg.limit < body.length then .reject codeMessageTooBig
  else if read [] (body.drop 2) ≠ some [] then .reject codeInvalidFramePayloadData
  else if 2 ≤ body.length ∧ eventIsValidStatusCode (statusOf body) = false then
    .reject codeProtocolError
  else .done 8 body ⟨waiting, none⟩

section

variable {cfg : RxConfig} {rx : Rx} {f : Frame}

theorem CloseFrame.ctrl (hf : CloseFrame cfg.server f) :
    8 ≤ f.opcode.val ∧ f.fin = true ∧ f.payload.length ≤ 125 := by
  have h8 : 8 ≤ f.opcode.val := by
    rw [hf.opcode]
    decide
  have hctrl : f.header.isCtrl = true := by
    rw [Header.isCtrl, decide_eq_true_eq]
    exact h8
  exact ⟨h8, hf.valid.2 hctrl⟩

theorem CloseFrame.length_encode (hf : CloseFrame cfg.server f) : f.encode.length ≤ 131 := by
  obtain ⟨-, -, hlen⟩ := hf.ctrl
  have hshort : f.header.length < 126 := by
    change f.payload.length < 126
    omega
  have hkey : f.header.keyOctets.length ≤ 4 := by
    unfold Header.keyOctets
    cases f.header.key with
    | none => exact Nat.zero_le 4
    | some k => exact Nat.le_refl 4
  have hoctets : f.header.lengthOctets.length = 1 := by
    rw [Header.lengthOctets, if_pos hshort]
    rfl
  rw [Frame.encode, List.length_append, Header.encode, List.length_append, List.length_cons,
    Header.length_mask]
  omega

/-- A Close is let in unless it is too long. -/
theorem CloseFrame.admits (hf : CloseFrame cfg.server f) (waiting : Option Draft) :
    Rx.admits cfg waiting f.header =
      if cfg.limit < f.payload.length then .error codeMessageTooBig
      else .ok (⟨f.header, 0, ⟨8, [], f.payload.length, []⟩⟩, waiting) := by
  obtain ⟨h8, -, hlen⟩ := hf.ctrl
  have hbelongs : belongs waiting f.header.opcode = some (.start 8, waiting) := by
    change belongs waiting f.opcode = _
    rw [hf.opcode]
    cases waiting <;> rfl
  have hmod : (0 + f.payload.length) % 2 ^ 64 = f.payload.length := by
    rw [Nat.zero_add, Nat.mod_eq_of_lt (by omega)]
  have hbits : ¬ (f.header.rsv ≠ 0 ∨ f.header.key.isSome ≠ cfg.server) := by
    rw [not_or, not_not, not_not]
    exact ⟨hf.rsv, hf.key⟩
  have hextend : (Draft.start 8).extend cfg f.header =
      ⟨8, [], (0 + f.payload.length) % 2 ^ 64, []⟩ := if_pos (cfg.buffers_ctrl h8)
  unfold Rx.admits
  rw [if_neg hbits, hbelongs]
  simp only [hextend]
  change (if cfg.limit < (0 + f.payload.length) % 2 ^ 64 then _ else _) = _
  rw [hmod]

/-- **What the receiver makes of a Close in one piece.** -/
theorem CloseFrame.piece (hf : CloseFrame cfg.server f) (hbetween : rx.frame = none) :
    ∃ calls, (∀ c ∈ calls, c.isMsg = false) ∧
      rx.piece 2 cfg f.header f.payload = ⟨calls, closeVerdict cfg rx.waiting f.payload⟩ := by
  obtain ⟨h8, hfin, -⟩ := hf.ctrl
  have hadmits := hf.admits rx.waiting
  unfold closeVerdict
  by_cases hbig : cfg.limit < f.payload.length
  · rw [if_pos hbig] at hadmits ⊢
    have he : rx.enter cfg f.header = .error codeMessageTooBig := by
      unfold Rx.enter
      simp only [hbetween, hadmits]
    rw [Rx.piece_error he]
    exact ⟨[], fun c hc => (by cases hc), rfl⟩
  · rw [if_neg hbig] at hadmits ⊢
    obtain ⟨p, hp⟩ : ∃ p : Progress, ⟨f.header, 0, ⟨8, [], f.payload.length, []⟩⟩ = p := ⟨_, rfl⟩
    rw [hp] at hadmits
    have he : rx.enter cfg f.header = .ok ([f.header.startCall], p, rx.waiting) := by
      unfold Rx.enter
      simp only [hbetween, hadmits]
    have hscan : p.draft.scan 2 f.payload = read [] (f.payload.drop 2) := by
      rw [← hp]
      rfl
    rw [Rx.piece_ok he]
    have hstart : ∀ calls, (∀ c ∈ calls, c.isMsg = false) →
        ∀ c ∈ [f.header.startCall] ++ calls, c.isMsg = false := by
      intro calls hcalls c hc
      rcases List.mem_append.1 hc with hc | hc
      · rw [List.mem_singleton.1 hc]
        rfl
      · exact hcalls c hc
    have hlen : p.off + f.payload.length = p.header.length := by
      rw [← hp]
      exact Nat.zero_add _
    rcases p.piece_cases 2 cfg rx.waiting f.payload with ⟨hnone, heq⟩ |
      ⟨text, hsome, ⟨-, heq⟩ | ⟨hne, -⟩⟩
    · rw [hscan] at hnone
      rw [heq, hnone, if_pos (by simp)]
      exact ⟨_, hstart [] (fun c hc => (by cases hc)), rfl⟩
    · rw [hscan] at hsome
      have hadvance : p.advance cfg f.payload text =
          ⟨f.header, f.payload.length, ⟨8, f.payload, f.payload.length, text⟩⟩ := by
        have hbuf : cfg.buffers f.header.opcode = true := cfg.buffers_ctrl h8
        rw [← hp]
        unfold Progress.advance
        simp only [hbuf, if_true, List.nil_append, Nat.zero_add]
      have hfin' : f.header.fin = true := hfin
      rw [heq, hadvance, Progress.finish, hsome]
      by_cases htext : text = []
      · subst htext
        have hgather : Draft.gather ⟨8, f.payload, f.payload.length, []⟩ = some f.payload := by
          unfold Draft.gather
          simp only [if_true]
          split_ifs with h0
          · rw [List.length_eq_zero_iff.1 h0]
          · rfl
        have hverdict : Draft.verdict cfg ⟨8, f.payload, f.payload.length, []⟩ rx.waiting =
            if 2 ≤ f.payload.length ∧ eventIsValidStatusCode (statusOf f.payload) = false then
              .reject codeProtocolError
            else .done 8 f.payload ⟨rx.waiting, none⟩ := by
          rw [Draft.verdict, if_pos (by simp), hgather]
          simp only [true_and]
        rw [if_neg (by simp), if_pos hfin', if_neg (by simp), hverdict]
        refine ⟨_, hstart [.frameRecvChunk f.payload, .frameRecvEnd] (fun c hc => ?_), rfl⟩
        simp only [List.mem_cons, List.not_mem_nil, or_false] at hc
        rcases hc with rfl | rfl <;> rfl
      · rw [if_pos ⟨hfin', Or.inr rfl, htext⟩, if_pos (by simpa using htext)]
        refine ⟨_, hstart [.frameRecvChunk f.payload] (fun c hc => ?_), rfl⟩
        rw [List.mem_singleton.1 hc]
        rfl
    · exact absurd hlen hne

end

/-! ## What is queued, noted and delivered -/

/-- **From `t` to `u` a Close with `body` has been accepted** and echoed. -/
structure Echoed (body : List UInt8) (t u : EventContext × Io) : Prop where
  queue : u.1.sendCtrlQueue =
    t.1.sendCtrlQueue ++ [⟨1, connectionClose, .nonFragmented, body, []⟩]
  queued : u.2.queued = t.2.queued ++ [.msg ⟨connectionClose, body⟩]
  received : u.1.closeStatus.received = true
  code : u.1.statusCodeRecv = if body = [] then codeNoStatusRcvd else beVal (body.take 2)
  delivered : u.2.calls.filter Call.isMsg = t.2.calls.filter Call.isMsg ++
    if t.1.callbacks.onMsgRecv then
      [.msgRecv 0 connectionClose body (if body = [] then 0 else beVal (body.take 2))]
    else []
  enabled : u.1.readEnabled = false

/-- **From `t` to `u` a Close has been refused** with a Close of our own. -/
structure Refused (t u : EventContext × Io) : Prop where
  queue : ∃ code, (code = codeProtocolError ∨ code = codeInvalidFramePayloadData) ∧
    u.1.sendCtrlQueue =
        t.1.sendCtrlQueue ++ [⟨1, connectionClose, .nonFragmented, beBytes 2 code, []⟩] ∧
      u.2.queued = t.2.queued ++ [.msg ⟨connectionClose, beBytes 2 code⟩]
  received : u.1.closeStatus.received = false
  delivered : u.2.calls.filter Call.isMsg = t.2.calls.filter Call.isMsg
  enabled : u.1.readEnabled = false

/-- The Close is accepted if its body is allowed, and refused otherwise. -/
def Judged (body : List UInt8) (t u : EventContext × Io) : Prop :=
  (AllowedBody body → Echoed body t u) ∧ (¬ AllowedBody body → Refused t u)

/-- A valid status code is not the one that stands for none. -/
theorem valid_ne_zero {code : Nat} (h : eventIsValidStatusCode code = true) :
    1000 ≤ code ∧ code < 2 ^ 16 := by
  unfold eventIsValidStatusCode at h
  simp only [Bool.or_eq_true, Bool.and_eq_true, decide_eq_true_eq] at h
  omega

/-- The body of a Close is taken apart and put together again. -/
theorem closeBody_statusOf {body : List UInt8} (h2 : 2 ≤ body.length)
    (hvalid : eventIsValidStatusCode (statusOf body) = true) :
    closeBody (UInt16.ofNat (statusOf body)) (body.drop 2) = body := by
  obtain ⟨hlow, hhigh⟩ := valid_ne_zero hvalid
  have hcode : (UInt16.ofNat (statusOf body)).toNat = statusOf body := by
    rw [UInt16.toNat_ofNat', Nat.mod_eq_of_lt hhigh]
  have hne : UInt16.ofNat (statusOf body) ≠ 0 := by
    intro h0
    rw [h0] at hcode
    have hzero : (0 : UInt16).toNat = 0 := rfl
    omega
  have htwo : (body.take 2).length = 2 := by
    rw [List.length_take]
    omega
  have hback := beBytes_beVal (body.take 2)
  rw [htwo] at hback
  rw [closeBody, if_neg hne, hcode, statusOf, if_pos h2, hback, List.take_append_drop]

theorem statusOf_allowed {body : List UInt8} (h : AllowedBody body) :
    statusOf body = if body = [] then 0 else beVal (body.take 2) := by
  rcases h with rfl | ⟨h2, -, -⟩
  · rfl
  · have hne : body ≠ [] := by
      rintro rfl
      simp at h2
    rw [if_neg hne, statusOf, if_pos h2]

section

variable {t u : EventContext × Io} {calls : List Call} {body : List UInt8}

/-- Of calls none of which delivers a message. -/
theorem filter_isMsg_nil (hcalls : ∀ c ∈ calls, c.isMsg = false) (cb : EventCallbacks) :
    (calls.filter cb.takes).filter Call.isMsg = [] :=
  List.filter_eq_nil_iff.2 fun c hc => by simp [hcalls c (List.mem_filter.1 hc).1]

/-- A context that refuses the Close. -/
theorem Follows.refused {code : Nat} {r : Int}
    (h : Follows t u ⟨calls, [.close code []], .off none r⟩)
    (hcalls : ∀ c ∈ calls, c.isMsg = false) (ht : t.1.closeStatus.received = false)
    (hcode : code = codeProtocolError ∨ code = codeInvalidFramePayloadData) : Refused t u := by
  obtain ⟨hqueued, hqueue⟩ := h.queues
  refine ⟨⟨code, hcode, ?_, ?_⟩, ?_, ?_, h.enabled⟩
  · rw [hqueue]
    rcases hcode with rfl | rfl <;> rfl
  · rw [hqueued]
    rcases hcode with rfl | rfl <;> rfl
  · rw [h.heard, ht]
    rfl
  · rw [h.calls, List.filter_append, filter_isMsg_nil hcalls, List.append_nil]

/-- A context that echoes the Close. -/
theorem Follows.echoed {r : Int} (hb : AllowedBody body)
    (h : Follows t u ⟨calls ++ [msgCall 8 body], [.close (statusOf body) (body.drop 2)],
      .off (some (statusOf body)) r⟩)
    (hcalls : ∀ c ∈ calls, c.isMsg = false) : Echoed body t u := by
  obtain ⟨hqueued, hqueue⟩ := h.queues
  have hecho : closeBody (UInt16.ofNat (statusOf body)) (body.drop 2) = body := by
    rcases hb with rfl | ⟨h2, hvalid, -⟩
    · rfl
    · refine closeBody_statusOf h2 ?_
      rw [statusOf, if_pos h2]
      exact hvalid
  have hstatus := statusOf_allowed hb
  refine ⟨?_, ?_, h.heard, ?_, ?_, h.enabled⟩
  · rw [hqueue]
    change _ ++ [(⟨1, connectionClose, .nonFragmented, closeBody _ _, []⟩ : EventOmsg)] = _
    rw [hecho]
  · rw [hqueued]
    change _ ++ [QueuedMsg.msg ⟨connectionClose, closeBody _ _⟩] = _
    rw [hecho]
  · rw [h.code]
    change (if statusOf body = 0 then codeNoStatusRcvd else statusOf body) = _
    rcases hb with rfl | ⟨h2, hvalid, -⟩
    · rfl
    · have hne : body ≠ [] := by
        rintro rfl
        simp at h2
      rw [if_neg hne] at hstatus ⊢
      have hlow := (valid_ne_zero hvalid).1
      rw [hstatus, if_neg (by omega)]
  · rw [h.calls, List.filter_append, List.filter_append, List.filter_append,
      filter_isMsg_nil hcalls, List.nil_append, ← hstatus]
    congr 1
    have htakes : t.1.callbacks.takes (msgCall 8 body) = t.1.callbacks.onMsgRecv := rfl
    rw [List.filter_singleton, htakes]
    cases t.1.callbacks.onMsgRecv <;> rfl

/-- What becomes of the Close, by its verdict. -/
theorem Follows.judged {cfg : RxConfig} {waiting : Option Draft}
    (hf : Follows t u (Reaction.report true ⟨calls, closeVerdict cfg waiting body⟩))
    (hcalls : ∀ c ∈ calls, c.isMsg = false) (ht : t.1.closeStatus.received = false) :
    u.1.readEnabled = false ∧
      (Judged body t u ↔ body.length ≠ 1 ∧ body.length ≤ cfg.limit) := by
  unfold closeVerdict at hf
  by_cases hbig : cfg.limit < body.length
  · -- the Close is longer than the limit
    rw [if_pos hbig] at hf
    refine ⟨hf.enabled, fun hj => ?_, fun h => absurd h.2 (by omega)⟩
    exfalso
    by_cases hallowed : AllowedBody body
    · have hnot := hf.heard.symm.trans (hj.1 hallowed).received
      rw [ht] at hnot
      cases hnot
    · obtain ⟨code, hcode, -, hq⟩ := (hj.2 hallowed).queue
      have heq := List.append_cancel_left (hf.queues.1.symm.trans hq)
      change [Reply.queued (.close codeMessageTooBig [])] = _ at heq
      rcases hcode with rfl | rfl <;> exact absurd heq (by decide)
  · rw [if_neg hbig] at hf
    by_cases htext : read [] (body.drop 2) ≠ some []
    · -- the reason is not UTF-8
      rw [if_pos htext] at hf
      have hlong : 2 ≤ body.length := by
        by_contra hlt
        rw [List.drop_eq_nil_of_le (by omega)] at htext
        exact htext rfl
      have hno : ¬ AllowedBody body := by
        rintro (rfl | ⟨-, -, hwf⟩)
        · exact htext rfl
        · exact htext ((Utf8.wellFormed_iff _).1 hwf)
      exact ⟨hf.enabled, fun _ => ⟨by omega, by omega⟩, fun _ => ⟨fun h => absurd h hno,
        fun _ => hf.refused hcalls ht (Or.inr rfl)⟩⟩
    · rw [if_neg htext] at hf
      by_cases hstatus : 2 ≤ body.length ∧ eventIsValidStatusCode (statusOf body) = false
      · -- the status code is not valid
        rw [if_pos hstatus] at hf
        have hno : ¬ AllowedBody body := by
          rintro (rfl | ⟨h2, hvalid, -⟩)
          · exact absurd hstatus.1 (by decide)
          · rw [statusOf, if_pos h2, hvalid] at hstatus
            cases hstatus.2
        exact ⟨hf.enabled, fun _ => ⟨by omega, by omega⟩, fun _ => ⟨fun h => absurd h hno,
          fun _ => hf.refused hcalls ht (Or.inl rfl)⟩⟩
      · -- the Close is echoed
        rw [if_neg hstatus] at hf
        change Follows t u ⟨calls ++ [msgCall 8 body], [.close (statusOf body) (body.drop 2)],
          .off (some (statusOf body)) 0⟩ at hf
        by_cases hone : body.length = 1
        · -- although there is one octet
          refine ⟨hf.enabled, fun hj => ?_, fun h => absurd hone h.1⟩
          have hno : ¬ AllowedBody body := by
            rintro (rfl | ⟨h2, -⟩)
            · cases hone
            · omega
          have hclear := (hj.2 hno).received
          rw [hf.heard] at hclear
          cases hclear
        · refine ⟨hf.enabled, fun _ => ⟨hone, by omega⟩, fun _ => ⟨fun h => hf.echoed h hcalls,
            fun hno => absurd ?_ hno⟩⟩
          rw [not_not] at htext
          by_cases h0 : body = []
          · exact Or.inl h0
          · have hpos := List.length_pos_of_ne_nil h0
            have h2 : 2 ≤ body.length := by omega
            refine Or.inr ⟨h2, ?_, (Utf8.wellFormed_iff _).2 htext⟩
            rw [statusOf, if_pos h2] at hstatus
            simpa [h2] using hstatus

end

/-- The call of `wslay_event_recv` ends with the pass that shuts reading down. -/
theorem eventRecv_last {cfg : RxConfig} {s t : EventContext × Io} (hs : Hears cfg s)
    (ht : Loop.Reaches recvPass s t) (hoff : (recvPass t).state.1.readEnabled = false) :
    (eventRecv s.1 s.2).2 = (recvPass t).state := by
  obtain ⟨u, hu, hlast⟩ := ht.run_leaves (eventRecv_run hs)
  cases hx : recvPass t with
  | leave r v =>
    obtain rfl := hu.of_leave hx
    rw [hx] at hlast
    cases hlast
    rfl
  | again v =>
    rw [hx, Step.state_again] at hoff
    rcases Relation.ReflTransGen.cases_head hu with rfl | ⟨w, hw, hwu⟩
    · rw [hx] at hlast
      cases hlast
    · rw [hx] at hw
      cases hw
      have hstay := recvPass_off hoff
      obtain rfl := Loop.Reaches.of_leave hstay hwu
      rw [hstay] at hlast
      simp only [Step.leave.injEq] at hlast
      exact hlast.2.symm

/-- **A Close is accepted exactly when its body is allowed, except for a body of one
octet**, and one that is longer than the limit.  Let a pass of a call of
`wslay_event_recv` in any run begin, while a message can be queued, the application only
looks on in its callbacks and no allocation fails.  A Close whose octets are at hand
between two frames is handed out in one piece.  If the whole body of a Close is, what the
call does is what the body deserves if and only if the body is not one octet and is not
longer than the limit. -/
theorem close_judged_iff (server : Bool) (callbacks : EventCallbacks) (noBuffering : Bool)
    (limit : Nat) (io : Io) (ops : List Op) (s t : EventContext × Io)
    (hs : s = runOps (configured server callbacks noBuffering limit, io) ops)
    (ht : Loop.Reaches recvPass s t) (hon : t.1.readEnabled = true) (happs : t.2.apps = [])
    (hmem : t.2.MemOk) (hqueueable : eventIsMsgQueueable t.1 = true) (f : Frame)
    (hf : CloseFrame server f) :
    (t.1.frameCtx.istate = .recvHeader1 → t.1.frameCtx.AtHand t.2 f.encode →
      (frameRecv t.1.frameCtx t.2).1 = .ok (f.header.iocb f.payload)) ∧
    ((frameRecv t.1.frameCtx t.2).1 = .ok (f.header.iocb f.payload) →
      (Judged f.payload t (eventRecv s.1 s.2).2 ↔
        f.payload.length ≠ 1 ∧ f.payload.length ≤ limit)) := by
  subst hs
  have hheard := unheard_reaches server callbacks noBuffering limit io ops ht hon
  have hhears := runOps_hears (configured_hears server callbacks noBuffering limit io) ops
  obtain ⟨new, T, hs, -, -, -, -, htells⟩ :=
    ordered_reaches server callbacks noBuffering limit io ops ht
  obtain ⟨rx, d, look, hs', acc, htells⟩ := htells hon
  obtain ⟨cfg, hcfg⟩ : ∃ cfg, cfg = RxConfig.of server callbacks noBuffering limit := ⟨_, rfl⟩
  rw [← hcfg] at htells hhears
  have hf' : CloseFrame cfg.server f := hcfg ▸ hf
  have hsize : f.encode.length ≤ ibufSize := le_trans hf'.length_encode (by decide)
  refine ⟨fun hstate hat => htells.listens.ready.whole hstate hat hf.valid hsize, fun hgiven => ?_⟩
  obtain ⟨hbetween, h, hvalid, -, hrsv, hopcode, hlength, hkey, hfollows⟩ :=
    htells.listens.takes htells.sound hgiven hon happs hmem hqueueable
  -- the frame that has come, which may have another key
  obtain ⟨g, rfl, hg⟩ : ∃ g : Frame, g.header = h ∧ g.payload = f.payload :=
    ⟨⟨h.fin, h.rsv, h.opcode, h.key, f.payload⟩, by rw [Frame.header, ← hlength], rfl⟩
  have hclose : CloseFrame cfg.server g :=
    ⟨hopcode.trans hf'.opcode, hvalid, hrsv.trans hf'.rsv, hkey.trans hf'.key⟩
  obtain ⟨calls, hcalls, hpiece⟩ := hclose.piece hbetween
  rw [hg] at hpiece
  rw [hpiece] at hfollows
  obtain ⟨hoff, hjudged⟩ := hfollows.judged hcalls hheard
  have hlimit : cfg.limit = limit := by
    rw [hcfg]
    rfl
  rw [eventRecv_last hhears ht hoff, ← hlimit]
  exact hjudged

/-- A client has received the first part of a text, and a Close comes. -/
def closingText : EventContext × Io :=
  runOps (configured false ⟨true, true, true, true⟩ false 100,
    { recvs := [.data [0x01, 0x01, 0x41], .fail none,
        .data ([0x88, 0x04, 0x03, 0xe8, 0x6f, 0x6b] ++ [])] }) [.recv]

theorem close_judged_iff_closingText :
    Echoed [0x03, 0xe8, 0x6f, 0x6b] closingText (eventRecv closingText.1 closingText.2).2 := by
  have hframe : CloseFrame false ⟨true, 0, 8, none, [0x03, 0xe8, 0x6f, 0x6b]⟩ :=
    ⟨rfl, by decide, rfl, rfl⟩
  have hmem : closingText.2.MemOk := by
    unfold Io.MemOk
    decide +kernel
  have hat : closingText.1.frameCtx.AtHand closingText.2 [0x88, 0x04, 0x03, 0xe8, 0x6f, 0x6b] :=
    Or.inr ⟨by decide +kernel, [], [], by decide +kernel⟩
  obtain ⟨hwhole, hjudged⟩ := close_judged_iff false ⟨true, true, true, true⟩ false 100
    { recvs := [.data [0x01, 0x01, 0x41], .fail none,
        .data ([0x88, 0x04, 0x03, 0xe8, 0x6f, 0x6b] ++ [])] } [.recv] closingText closingText rfl
    .refl (by decide +kernel) (by decide +kernel) hmem (by decide +kernel) _ hframe
  have hecho := (hjudged (hwhole (by decide +kernel) hat)).2 ⟨by decide, by decide⟩
  exact hecho.1 (Or.inr ⟨by decide, by decide, by decide⟩)

/-- A Close whose body is one octet is accepted, and echoed without a body. -/
theorem oneOctet_accepted :
    let s : EventContext × Io := (configured false ⟨true, true, true, true⟩ false 100,
      { recvs := [.data [0x88, 0x01, 0x41]] })
    CloseFrame false ⟨true, 0, 8, none, [0x41]⟩ ∧ ¬ Judged [0x41] s (eventRecv s.1 s.2).2 ∧
      (eventRecv s.1 s.2).2.2.queued = [.msg ⟨connectionClose, []⟩] := by
  refine ⟨⟨rfl, by decide, rfl, rfl⟩, fun hj => ?_, by decide +kernel⟩
  have hno : ¬ AllowedBody [0x41] := by
    rintro (h | ⟨h, -⟩)
    · cases h
    · exact absurd h (by decide)
  have hclear := (hj.2 hno).received
  revert hclear
  decide +kernel

end Wslay
