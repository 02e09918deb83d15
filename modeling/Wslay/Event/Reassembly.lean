import Wslay.Event.Assembly

/-!
# Legal sequences of frames

`wslay_event_recv` accepts exactly the legal sequences of frames, and delivers
the messages of the reference reassembler.

* `Assembly.gather` — what comes of the legal frames at the front of a sequence.
* `Assembly.run_fine` — what the receiver makes of such a sequence.
* `frames_reassembled` — **the messages are those of the reassembler, up to the
  first frame that is not legal**.
-/

namespace Wslay

open Utf8 (read WellFormed)

namespace Assembly

/-- What `get` says of the frames up to the first that is not legal. -/
def gather {β : Type} (server : Bool) (get : Assembly → Frame → List β) :
    Assembly → List Frame → List β
  | _, [] => []
  | a, f :: fs => if a.accepts server f then get a f ++ (a.after f).gather server get fs else []

/-- All frames are legal. -/
def isLegal (server : Bool) : Assembly → List Frame → Bool
  | _, [] => true
  | a, f :: fs => a.accepts server f && (a.after f).isLegal server fs

/-- The frames up to the first that is not legal. -/
def legal (server : Bool) (a : Assembly) (fs : List Frame) : List Frame :=
  a.gather server (fun _ f => [f]) fs

/-- The messages that the frames make. -/
def messages (server : Bool) (a : Assembly) (fs : List Frame) : List (Fin 16 × List UInt8) :=
  a.gather server (fun a f => (a.message f).toList) fs

/-- `P` holds of the frames up to the first that is not legal. -/
def Along (server : Bool) (P : Assembly → Frame → Prop) : Assembly → List Frame → Prop
  | _, [] => True
  | a, f :: fs => a.accepts server f = true → P a f ∧ (a.after f).Along server P fs

/-- The message up to this frame is not too long, and if it is a text, what there is
of it is UTF-8. -/
def Fine (limit : Nat) (a : Assembly) (f : Frame) : Prop :=
  (a.joined f).length ≤ limit ∧
    (a.opcodeOf f = 1 →
      if f.fin then WellFormed (a.joined f) else ∃ t, WellFormed (a.joined f ++ t))

/-- The calls of the callbacks for a frame. -/
def callsOf (a : Assembly) (f : Frame) : List Call :=
  [f.header.startCall, .frameRecvChunk f.payload, .frameRecvEnd] ++
    (a.message f).toList.map fun m => msgCall m.1 m.2

/-- The automatic reply to a frame. -/
def pongOf (f : Frame) : List Reply := if f.opcode = 9 then [.pong f.payload] else []

section

variable {cfg : RxConfig} {a : Assembly} {f : Frame} {fs : List Frame}

theorem kept_of_buffering (hbuf : cfg.noBuffering = false) (opcode : Fin 16) (body : List UInt8) :
    kept cfg opcode body = body := by
  rw [kept, if_pos]
  rw [RxConfig.buffers, hbuf]
  rfl

theorem lengthOf_of_buffering (hbuf : cfg.noBuffering = false) :
    a.lengthOf cfg f = (a.joined f).length := by
  rw [lengthOf, kept_of_buffering hbuf, joined, List.length_append]

theorem Fine.readable {limit : Nat} (h : Fine limit a f) (h1 : a.opcodeOf f = 1) :
    ∃ t, read [] (a.joined f) = some t ∧ (f.fin = true → t = []) := by
  have htext := h.2 h1
  cases hfin : f.fin with
  | true =>
    rw [if_pos hfin] at htext
    exact ⟨[], (Utf8.wellFormed_iff _).1 htext, fun _ => rfl⟩
  | false =>
    rw [if_neg (by simp [hfin])] at htext
    obtain ⟨t, ht⟩ := Option.isSome_iff_exists.1 ((Utf8.read_isSome_iff _).2 htext)
    exact ⟨t, ht, fun h => by cases h⟩

/-- A frame that is fine is taken, if it is legal. -/
theorem report_fine (hbuf : cfg.noBuffering = false) (hacc : a.accepts cfg.server f = true)
    (hfine : Fine cfg.limit a f) :
    a.report true cfg f = ⟨a.callsOf f, pongOf f, .live ((a.after f).rx cfg)⟩ := by
  have hlen : ¬ cfg.limit < a.lengthOf cfg f := by
    rw [lengthOf_of_buffering hbuf]
    exact Nat.not_lt.2 hfine.1
  have hnone : ¬ (a.opcodeOf f = 1 ∧ read [] (a.joined f) = none) := by
    rintro ⟨h1, hnone⟩
    obtain ⟨t, ht, -⟩ := hfine.readable h1
    rw [hnone] at ht
    cases ht
  have hsome : ¬ (a.opcodeOf f = 1 ∧ f.fin = true ∧ read [] (a.joined f) ≠ some []) := by
    rintro ⟨h1, hfin, hne⟩
    obtain ⟨t, ht, hnil⟩ := hfine.readable h1
    exact hne (by rw [ht, hnil hfin])
  rw [report, hacc, if_neg (by simp), if_neg hlen, if_neg hnone, if_neg hsome,
    kept_of_buffering hbuf, callsOf, message, pongOf]
  simp only [and_true]
  split_ifs <;> rfl

/-- **What the receiver makes of frames that are fine.** -/
theorem run_fine (hbuf : cfg.noBuffering = false)
    (hfine : a.Along cfg.server (Fine cfg.limit) fs) :
    (a.run true cfg fs).calls = a.gather cfg.server callsOf fs ∧
      (a.run true cfg fs).replies = a.gather cfg.server (fun _ => pongOf) fs ++
        (if a.isLegal cfg.server fs then [] else [.close codeProtocolError []]) ∧
      (a.run true cfg fs).fate.isLive = a.isLegal cfg.server fs ∧
      (a.run true cfg fs).fate.heard = none := by
  induction fs generalizing a with
  | nil => exact ⟨rfl, rfl, rfl, rfl⟩
  | cons f fs ih =>
    unfold gather isLegal run
    cases hacc : a.accepts cfg.server f with
    | false =>
      have hrep : a.report true cfg f = giveUp true [] codeProtocolError := by
        rw [report, hacc, if_pos rfl]
      rw [hrep, Report.andThen_off rfl]
      exact ⟨rfl, rfl, rfl, rfl⟩
    | true =>
      obtain ⟨hnow, hrest⟩ := hfine hacc
      obtain ⟨h1, h2, h3, h4⟩ := ih hrest
      rw [report_fine hbuf hacc hnow, Report.andThen_live rfl]
      simp only [h1, h2, h3, h4, if_true, Bool.true_and, List.append_assoc, and_self]

/-- The lengths are no more than can be counted, and cuts are not seen. -/
theorem meets_fine (hbuf : cfg.noBuffering = false) (hlimit : cfg.limit < 2 ^ 64)
    (hfine : a.Along cfg.server (Fine cfg.limit) fs) (h8 : ∀ f ∈ fs, f.opcode ≠ 8)
    {α : Type} (g : Call → List α) :
    a.Meets true cfg (fun a f => (a.accepts cfg.server f = true → a.lengthOf cfg f < 2 ^ 64) ∧
      (a.Ok → (a.rx cfg).Smooth g cfg f.item)) fs := by
  induction fs generalizing a with
  | nil => trivial
  | cons f fs ih =>
    have hsmall : a.accepts cfg.server f = true → a.lengthOf cfg f < 2 ^ 64 := fun hacc => by
      rw [lengthOf_of_buffering hbuf]
      exact lt_of_le_of_lt (hfine hacc).1.1 hlimit
    refine ⟨⟨hsmall, fun ha => ?_⟩, fun rx' hlive => ?_⟩
    · refine smooth_readable g ha (h8 f (List.mem_cons_self ..)) hsmall fun hacc h1 => ?_
      obtain ⟨t, ht, -⟩ := (hfine hacc).1.readable h1
      rw [ht]
      rfl
    · exact ih (hfine (report_live hlive).1).2 fun g hg => h8 g (List.mem_cons_of_mem _ hg)

end

/-! ## The legal frames -/

section

variable {server : Bool} {a : Assembly} {fs : List Frame}

theorem legal_prefix : a.legal server fs <+: fs := by
  unfold legal
  induction fs generalizing a with
  | nil => exact List.prefix_rfl
  | cons f fs ih =>
    unfold gather
    split_ifs
    · exact List.cons_prefix_cons.2 ⟨rfl, ih⟩
    · exact List.nil_prefix

theorem isLegal_legal : a.isLegal server (a.legal server fs) = true := by
  unfold legal
  induction fs generalizing a with
  | nil => rfl
  | cons f fs ih =>
    unfold gather
    split_ifs with hacc
    · change (a.accepts server f && _) = true
      rw [hacc, Bool.true_and]
      exact ih
    · rfl

theorem Along.legal {P : Assembly → Frame → Prop} (h : a.Along server P fs) :
    a.Along server P (a.legal server fs) := by
  unfold Assembly.legal
  induction fs generalizing a with
  | nil => exact h
  | cons f fs ih =>
    unfold gather
    split_ifs with hacc
    · exact fun _ => ⟨(h hacc).1, ih (h hacc).2⟩
    · trivial

/-- The messages are delivered by the calls for the frames. -/
theorem filter_isMsg_gather : (a.gather server callsOf fs).filter Call.isMsg =
    (a.messages server fs).map fun m => msgCall m.1 m.2 := by
  unfold messages
  induction fs generalizing a with
  | nil => rfl
  | cons f fs ih =>
    unfold gather
    split_ifs
    · rw [List.filter_append, List.map_append, ih, callsOf, List.filter_append]
      have hall : ((a.message f).toList.map fun m => msgCall m.1 m.2).filter Call.isMsg =
          (a.message f).toList.map fun m => msgCall m.1 m.2 := by
        refine List.filter_eq_self.2 fun c hc => ?_
        obtain ⟨m, -, rfl⟩ := List.mem_map.1 hc
        rfl
      rw [hall]
      rfl
    · rfl

end

end Assembly

/-! ## Runs of `wslay_event_recv` -/

/-- The octets of a sequence of frames are the pieces that they are. -/
theorem streamItems_frames {fs : List Frame} (hv : ∀ f ∈ fs, f.header.Valid) :
    streamItems (fs.flatMap Frame.encode) = fs.map Frame.item := by
  have h := streamItems_flatMap hv []
  rw [List.append_nil] at h
  rw [h]
  have hnil : streamItems [] = [] := by
    rw [streamItems, decodeStream_more rfl]
    rfl
  rw [hnil, List.append_nil]

section

variable {server : Bool} {callbacks : EventCallbacks} {limit : Nat} {fs : List Frame} {io : Io}

/-- What the frames come to, and what any part of a run has come to. -/
theorem frames_alike (hset : callbacks.onMsgRecv = true) (hlimit : limit < 2 ^ 64)
    (hvalid : ∀ f ∈ fs, f.header.Valid) (hclose : ∀ f ∈ fs, f.opcode ≠ 8)
    (hfine : Assembly.idle.Along server (Assembly.Fine limit) fs)
    {s s' : EventContext × Io} {new look' more : List UInt8} {items : List Item} {d' : Dec}
    (ht : Trace (.of server callbacks false limit) true s .fresh .head [] s' new items d' look')
    (hmore : new ++ more = fs.flatMap Frame.encode) :
    Report.Alike seen (Assembly.idle.run true (.of server callbacks false limit) fs)
      ((Rx.fresh.run true (.of server callbacks false limit) items).andThen fun rx =>
        rx.run true (.of server callbacks false limit) (d'.items (look' ++ more))) := by
  have hbuf : (RxConfig.of server callbacks false limit).noBuffering = false := rfl
  have hmeets := Assembly.meets_fine hbuf hlimit hfine hclose seen
  have hitems : Dec.head.items ([] ++ (new ++ more)) = fs.map Frame.item := by
    rw [List.nil_append, hmore]
    exact streamItems_frames hvalid
  have hrun : Rx.fresh.run true (.of server callbacks false limit) (fs.map Frame.item) =
      Assembly.idle.run true (.of server callbacks false limit) fs :=
    Assembly.run_items hset Assembly.ok_idle hvalid hclose (hmeets.mono fun _ _ h => h.1)
  have halike := ht.more seen_append (Or.inl rfl) more (by
    rw [hitems]
    exact Assembly.meets_items hset Assembly.ok_idle hvalid hclose hmeets)
  rw [hitems, hrun] at halike
  exact halike

/-- A part of a run has ended reading exactly if it has queued a Close with the code
1002. -/
theorem ended_iff (hset : callbacks.onMsgRecv = true) (hlimit : limit < 2 ^ 64)
    (hvalid : ∀ f ∈ fs, f.header.Valid) (hclose : ∀ f ∈ fs, f.opcode ≠ 8)
    (hfine : Assembly.idle.Along server (Assembly.Fine limit) fs)
    {s s' : EventContext × Io} {new look' more : List UInt8} {items : List Item} {d' : Dec}
    (ht : Trace (.of server callbacks false limit) true s .fresh .head [] s' new items d' look')
    (hmore : new ++ more = fs.flatMap Frame.encode) :
    (Rx.fresh.run true (.of server callbacks false limit) items).fate.isLive = false ↔
      Reply.queued (.close codeProtocolError []) ∈
        (Rx.fresh.run true (.of server callbacks false limit) items).replies.map Reply.queued := by
  have halike := frames_alike hset hlimit hvalid hclose hfine ht hmore
  have hreplies : (Assembly.idle.run true (.of server callbacks false limit) fs).replies =
      Assembly.idle.gather server (fun _ => Assembly.pongOf) fs ++
        (if Assembly.idle.isLegal server fs then [] else [.close codeProtocolError []]) :=
    (Assembly.run_fine rfl hfine).2.1
  have hlive : (Assembly.idle.run true (.of server callbacks false limit) fs).fate.isLive =
      Assembly.idle.isLegal server fs := (Assembly.run_fine rfl hfine).2.2.1
  constructor
  · intro hoff
    obtain ⟨heard, r, hfate⟩ : ∃ heard r,
        (Rx.fresh.run true (.of server callbacks false limit) items).fate = .off heard r := by
      cases hf : (Rx.fresh.run true (.of server callbacks false limit) items).fate with
      | off heard r => exact ⟨heard, r, rfl⟩
      | live rx =>
        rw [hf] at hoff
        cases hoff
    rw [Report.andThen_off hfate] at halike
    have hnot : Assembly.idle.isLegal server fs = false := by
      rw [← hlive, halike.fate]
      exact hoff
    rw [← halike.replies, hreplies, hnot]
    exact List.mem_map_of_mem (List.mem_append_right _ (List.mem_singleton_self _))
  · intro hmem
    obtain ⟨r, hr, heq⟩ := List.mem_map.1 hmem
    cases hf : (Rx.fresh.run true (.of server callbacks false limit) items).fate with
    | off heard r => rfl
    | live rx =>
      obtain ⟨msg, rfl⟩ := Rx.run_onlyPongs _ _ _ _ rx hf r hr
      cases heq

/-- A part of a run that has ended reading goes beyond the legal frames. -/
theorem ended_beyond (hset : callbacks.onMsgRecv = true) (hlimit : limit < 2 ^ 64)
    (hvalid : ∀ f ∈ fs, f.header.Valid) (hclose : ∀ f ∈ fs, f.opcode ≠ 8)
    (hfine : Assembly.idle.Along server (Assembly.Fine limit) fs)
    {s s' : EventContext × Io} {new look' more : List UInt8} {items : List Item} {d' : Dec}
    (ht : Trace (.of server callbacks false limit) true s .fresh .head [] s' new items d' look')
    (hmore : new ++ more = fs.flatMap Frame.encode)
    (hoff : (Rx.fresh.run true (.of server callbacks false limit) items).fate.isLive = false) :
    ((Assembly.idle.legal server fs).flatMap Frame.encode).length < new.length := by
  by_contra hshort
  rw [not_lt] at hshort
  -- otherwise all that has been received belongs to the legal frames
  obtain ⟨rest, hrest⟩ : Assembly.idle.legal server fs <+: fs := Assembly.legal_prefix
  obtain ⟨more, hmore'⟩ : new <+: (Assembly.idle.legal server fs).flatMap Frame.encode := by
    refine List.prefix_of_prefix_length_le ⟨_, hmore⟩ ?_ hshort
    have hsplit := congrArg (List.flatMap Frame.encode) hrest
    rw [List.flatMap_append] at hsplit
    exact ⟨_, hsplit⟩
  have hlegal : ∀ f ∈ Assembly.idle.legal server fs, f ∈ fs := fun f hf =>
    Assembly.legal_prefix.subset hf
  have halike := frames_alike hset hlimit (fun f hf => hvalid f (hlegal f hf))
    (fun f hf => hclose f (hlegal f hf)) hfine.legal ht hmore'
  cases hf : (Rx.fresh.run true (.of server callbacks false limit) items).fate with
  | live rx =>
    rw [hf] at hoff
    cases hoff
  | off heard r =>
    rw [Report.andThen_off hf] at halike
    have hgo : (Assembly.idle.run true (.of server callbacks false limit)
        (Assembly.idle.legal server fs)).fate.isLive = true :=
      (Assembly.run_fine rfl hfine.legal).2.2.1.trans Assembly.isLegal_legal
    rw [halike.fate, hoff] at hgo
    cases hgo

/-- The messages of the reassembler, among the calls that are made. -/
theorem filter_isMsg_calls (hset : callbacks.onMsgRecv = true) :
    ((Assembly.idle.gather server Assembly.callsOf fs).filter callbacks.takes).filter Call.isMsg =
      (Assembly.idle.messages server fs).map fun m => msgCall m.1 m.2 := by
  rw [← Assembly.filter_isMsg_gather, List.filter_filter]
  refine List.filter_congr fun c _ => ?_
  cases c with
  | msgRecv rsv opcode msg code => simp [Call.isMsg, EventCallbacks.takes, hset]
  | _ => simp [Call.isMsg]

/-- **`wslay_event_recv` accepts exactly the legal sequences of frames, and
reassembles them.**  After any number of calls only messages of the reference
reassembler have been delivered, in its order, only callbacks for legal frames
have been called, and a Close with the code 1002 has been queued and reading is
over only if the octets received go beyond the legal frames.  Once the stream is
used up that is what has happened. -/
theorem frames_reassembled (server : Bool) (callbacks : EventCallbacks)
    (hset : callbacks.onMsgRecv = true) (limit : Nat) (hlimit : limit < 2 ^ 64) (fs : List Frame)
    (hvalid : ∀ f ∈ fs, f.header.Valid) (hclose : ∀ f ∈ fs, f.opcode ≠ 8)
    (hfine : Assembly.idle.Along server (Assembly.Fine limit) fs) (io : Io) (hcalm : io.Calm)
    (hstream : pendingOctets io.recvs = fs.flatMap Frame.encode) (n : Nat) :
    let s := recvRun (configured server callbacks false limit, io) n
    let messages := (Assembly.idle.messages server fs).map fun m => msgCall m.1 m.2
    let calls := (Assembly.idle.gather server Assembly.callsOf fs).filter callbacks.takes
    let pongs := Assembly.idle.gather server (fun _ => Assembly.pongOf) fs
    let closes : List Reply :=
      if Assembly.idle.isLegal server fs then [] else [.close codeProtocolError []]
    (s.2.calls.filter Call.isMsg <+: messages ∧
      s.2.calls.flatMap seen <+: calls.flatMap seen ∧
      s.2.queued <+: (pongs ++ closes).map Reply.queued ∧
      (s.1.readEnabled = false ↔ Reply.queued (.close codeProtocolError []) ∈ s.2.queued) ∧
      (s.1.readEnabled = false →
        ((Assembly.idle.legal server fs).flatMap Frame.encode).length < s.2.received.length)) ∧
    (io.recvs.length < n → s.2.calls.filter Call.isMsg = messages ∧
      s.2.calls.flatMap seen = calls.flatMap seen ∧
      s.2.queued = (pongs ++ closes).map Reply.queued ∧
      s.1.readEnabled = Assembly.idle.isLegal server fs) := by
  have hruns := configured_runs server callbacks false limit hcalm
  obtain ⟨W, hW⟩ : ∃ W, Assembly.idle.run true (.of server callbacks false limit) fs = W :=
    ⟨_, rfl⟩
  obtain ⟨hcalls, hreplies, hlive, -⟩ :
      W.calls = Assembly.idle.gather server Assembly.callsOf fs ∧
        W.replies = Assembly.idle.gather server (fun _ => Assembly.pongOf) fs ++
          (if Assembly.idle.isLegal server fs then [] else [.close codeProtocolError []]) ∧
        W.fate.isLive = Assembly.idle.isLegal server fs ∧ W.fate.heard = none := by
    rw [← hW]
    exact Assembly.run_fine rfl hfine
  have hseen : ((Assembly.idle.gather server Assembly.callsOf fs).filter callbacks.takes).flatMap
      seen = (W.calls.flatMap seen).filter callbacks.shows := by
    rw [flatMap_seen_filter, hcalls]
  refine ⟨?_, fun hn => ?_⟩
  · obtain ⟨new, items, d', look', ht⟩ := recvRun_trace hruns n
    have hst := ht.follows.stands hcalm
    have hmore := ht.pending.symm.trans hstream
    have hoff := ended_iff hset hlimit hvalid hclose hfine ht hmore
    have hbeyond := ended_beyond hset hlimit hvalid hclose hfine ht hmore
    have halike := frames_alike hset hlimit hvalid hclose hfine ht hmore
    obtain ⟨R, hR⟩ : ∃ R, Rx.fresh.run true (.of server callbacks false limit) items = R :=
      ⟨_, rfl⟩
    rw [hR] at hst hoff hbeyond
    rw [hW, hR] at halike
    obtain ⟨hpre, hpre'⟩ := R.prefix_andThen fun rx => rx.run true
      (.of server callbacks false limit) (d'.items (look' ++ pendingOctets
        (recvRun (configured server callbacks false limit, io) n).2.recvs))
    rw [← halike.replies] at hpre'
    have hsees : (recvRun (configured server callbacks false limit, io) n).2.calls.flatMap seen <+:
        (W.calls.flatMap seen).filter callbacks.shows := by
      rw [hst.calls, flatMap_seen_filter, halike.calls]
      exact (hpre.flatMap seen).filter _
    refine ⟨?_, hseen ▸ hsees, ?_, ?_, ?_⟩
    · rw [← filter_isMsg_calls hset, filter_isMsg, filter_isMsg, hseen]
      exact hsees.filterMap _
    · rw [hst.queued, ← hreplies]
      exact hpre'.map _
    · rw [hst.enabled, hst.queued]
      exact hoff
    · rw [hst.enabled, ht.received, hcalm.received, List.nil_append]
      exact hbeyond
  · obtain ⟨new, items, d', look', more, ht, hmore, hall⟩ := recvRun_finishes hruns hn
    have hst := ht.follows.stands hcalm
    have hsame := frames_alike hset hlimit hvalid hclose hfine ht (hmore.trans hstream)
    rw [hW, hall] at hsame
    have hsees : (recvRun (configured server callbacks false limit, io) n).2.calls.flatMap seen =
        (W.calls.flatMap seen).filter callbacks.shows := by
      rw [hst.calls, flatMap_seen_filter, hsame.calls]
    refine ⟨?_, hsees.trans hseen.symm, ?_, ?_⟩
    · rw [← filter_isMsg_calls hset, filter_isMsg, filter_isMsg, hseen, hsees]
    · rw [hst.queued, ← hreplies, hsame.replies]
    · rw [hst.enabled, ← hlive, hsame.fate]

/-- A text in two parts with a Ping between them, and a continuation of nothing. -/
def exampleFrames : List Frame :=
  [⟨false, 0, 1, none, [0x41, 0xc3]⟩, ⟨true, 0, 9, none, [0x70]⟩, ⟨true, 0, 0, none, [0xa9]⟩,
    ⟨true, 0, 0, none, []⟩]

theorem frames_reassembled_example :
    let s := recvRun (configured false ⟨true, true, true, true⟩ false 1000,
      { recvs := [.data (exampleFrames.flatMap Frame.encode)] }) 2
    s.2.calls.filter Call.isMsg = [msgCall 9 [0x70], msgCall 1 [0x41, 0xc3, 0xa9]] ∧
      s.2.queued = [Reply.queued (.pong [0x70]), Reply.queued (.close 1002 [])] ∧
      s.1.readEnabled = false := by
  have hvalid : ∀ f ∈ exampleFrames, f.header.Valid := by decide
  have hclose : ∀ f ∈ exampleFrames, f.opcode ≠ 8 := by decide
  have hfine : Assembly.idle.Along false (Assembly.Fine 1000) exampleFrames := by
    refine fun _ => ⟨⟨by decide, fun _ => ⟨[0xa9], by decide⟩⟩, fun _ => ⟨⟨by decide, ?_⟩, ?_⟩⟩
    · exact fun h => by cases h
    · refine fun _ => ⟨⟨by decide, fun _ => ?_⟩, fun h => (by cases h)⟩
      rw [if_pos rfl]
      decide
  have hcalm : Io.Calm { recvs := [.data (exampleFrames.flatMap Frame.encode)] } :=
    ⟨rfl, fun h => (by cases h), ⟨Or.inl rfl, fun e he => (by simp at he)⟩, rfl, rfl, rfl⟩
  obtain ⟨h1, -, h3, h4⟩ := (frames_reassembled false ⟨true, true, true, true⟩ rfl 1000 (by decide)
    exampleFrames hvalid hclose hfine { recvs := [.data (exampleFrames.flatMap Frame.encode)] }
    hcalm (List.append_nil _) 2).2 (by decide)
  refine ⟨h1.trans ?_, h3.trans ?_, h4.trans ?_⟩ <;> decide

end

end Wslay
