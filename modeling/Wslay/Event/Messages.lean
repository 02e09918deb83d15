import Wslay.Event.Ledger
import Wslay.Event.Legal

/-!
# The messages that frames carry

The sender cuts messages into frames, and lets control frames come between them;
the receiver puts them together again.  Here the two are compared: the frames that
queued messages are sent in make these messages, and they are legal.

* `EventOmsg.message` — what a queued message is to arrive as.
* `Assembly.dataMessages`, `ctrlMessages` — what frames make.
* `Assembly.plans_makes` — **the frames of messages make these messages**, and are
  welcome.
* `Assembly.all_legal` — they stay so when control frames come between them.
* `Assembly.allMessages_filter` — data messages and control messages, told apart.
-/

namespace Wslay

open Utf8 (WellFormed)

/-! ## Queued messages -/

/-- The octets that a source gives, if it comes to its end. -/
def sourceOctets : List ReadResult → Option (List UInt8)
  | [] => none
  | .fail _ :: _ => none
  | .data bs eof _ :: rs =>
    if bs = [] then sourceOctets rs
    else if eof then some bs
    else (sourceOctets rs).map fun more => bs ++ more

/-- **What a queued message is to arrive as**, if it comes to its end: its opcode and
its octets. -/
def EventOmsg.message (m : EventOmsg) : Option (Fin 16 × List UInt8) :=
  match m.type with
  | .nonFragmented => some (wireOpcode m.opcode, m.data)
  | .fragmented => (sourceOctets m.source).map fun bs => (wireOpcode m.opcode, bs)

/-! ## What frames make -/

/-- The frame of an outline, without a key. -/
def Outline.bare (o : Outline) : Frame := o.frame none

namespace Assembly

/-- The data message that is complete with the frame. -/
def dataMessage (a : Assembly) (f : Frame) : List (Fin 16 × List UInt8) :=
  if 8 ≤ f.opcode.val then [] else (a.message f).toList

/-- The data messages that frames make. -/
def dataMessages (a : Assembly) (fs : List Frame) : List (Fin 16 × List UInt8) :=
  a.along dataMessage fs

/-- All messages that frames make. -/
def allMessages (a : Assembly) (fs : List Frame) : List (Fin 16 × List UInt8) :=
  a.along (fun a f => (a.message f).toList) fs

/-- The control messages that frames make. -/
def ctrlMessages (fs : List Frame) : List (Fin 16 × List UInt8) :=
  (ctrlOutlines fs).map fun o => (o.opcode, o.payload)

/-! ## The outlines are enough -/

variable {a : Assembly}

theorem after_bare (f : Frame) : a.after f.outline.bare = a.after f := rfl

theorem dataMessage_bare (f : Frame) : a.dataMessage f.outline.bare = a.dataMessage f := rfl

theorem after_ctrl {f : Frame} (hc : 8 ≤ f.opcode.val) : a.after f = a := if_pos hc

theorem dataMessage_ctrl {f : Frame} (hc : 8 ≤ f.opcode.val) : a.dataMessage f = [] := if_pos hc

/-- The first of the data outlines. -/
theorem dataOutlines_cons (f : Frame) (fs : List Frame) :
    dataOutlines (f :: fs) =
      if 8 ≤ f.opcode.val then dataOutlines fs else f.outline :: dataOutlines fs := by
  unfold dataOutlines
  rw [List.map_cons, List.filter_cons]
  by_cases hc : 8 ≤ f.opcode.val
  · have hctrl : (!f.outline.isCtrl) = false := by simp [Outline.isCtrl, Frame.outline, hc]
    rw [hctrl, if_pos hc]
    rfl
  · have hctrl : (!f.outline.isCtrl) = true := by simp [Outline.isCtrl, Frame.outline, hc]
    rw [hctrl, if_neg hc]
    rfl

/-- Control frames make no data message, and disturb none. -/
theorem dataMessages_outlines (fs : List Frame) :
    a.dataMessages ((dataOutlines fs).map Outline.bare) = a.dataMessages fs := by
  induction fs generalizing a with
  | nil => rfl
  | cons f fs ih =>
    rw [dataOutlines_cons]
    by_cases hc : 8 ≤ f.opcode.val
    · rw [if_pos hc, ih]
      change a.dataMessages fs = a.dataMessage f ++ (a.after f).dataMessages fs
      rw [dataMessage_ctrl hc, after_ctrl hc]
      rfl
    · rw [if_neg hc]
      change a.dataMessage f.outline.bare ++ (a.after f.outline.bare).dataMessages _ =
        a.dataMessage f ++ (a.after f).dataMessages fs
      rw [dataMessage_bare, after_bare, ih]

/-- What is made by a front of some frames is a front of what all of them make. -/
theorem dataMessages_prefix {fs gs : List Frame} (h : fs <+: gs) :
    a.dataMessages fs <+: a.dataMessages gs := by
  obtain ⟨rest, rfl⟩ := h
  unfold dataMessages
  rw [along_append]
  exact List.prefix_append _ _

/-! ## The frames of one message -/

/-- A message in several parts. -/
def cut (opcode : Fin 16) : List (List UInt8) → List Outline
  | [] => []
  | [part] => [⟨true, opcode, part⟩]
  | part :: parts => ⟨false, opcode, part⟩ :: cut 0 parts

theorem cut_cons (opcode : Fin 16) (part next : List UInt8) (parts : List (List UInt8)) :
    cut opcode (part :: next :: parts) = ⟨false, opcode, part⟩ :: cut 0 (next :: parts) := rfl

/-- A source that comes to its end gives the parts of what it gives. -/
theorem fragments_cut {rs : List ReadResult} {opcode : UInt8} {bs : List UInt8}
    (h : sourceOctets rs = some bs) :
    ∃ part parts, (part :: parts).flatten = bs ∧
      ∀ later, fragments opcode rs later = cut (wireOpcode opcode) (part :: parts) ++ later := by
  induction rs generalizing opcode bs with
  | nil => cases h
  | cons r rs ih =>
    cases r with
    | fail e => cases h
    | data chunk eof fits =>
      rw [sourceOctets] at h
      by_cases hnil : chunk = []
      · rw [if_pos hnil] at h
        obtain ⟨part, parts, hflat, hcut⟩ := @ih opcode bs h
        refine ⟨part, parts, hflat, ?_⟩
        intro later
        rw [fragments, if_pos hnil]
        exact hcut later
      · rw [if_neg hnil] at h
        cases eof with
        | true =>
          refine ⟨chunk, [], ?_, ?_⟩
          · rw [List.flatten_singleton]
            exact Option.some.inj h
          · intro later
            rw [fragment_data hnil]
            rfl
        | false =>
          obtain ⟨more, hmore, rfl⟩ := Option.map_eq_some_iff.1 h
          obtain ⟨part, parts, hflat, hcut⟩ := @ih continuationFrame more hmore
          refine ⟨chunk, part :: parts, ?_, ?_⟩
          · rw [List.flatten_cons, hflat]
          · intro later
            rw [fragment_data hnil, cut_cons, List.cons_append]
            exact congrArg (List.cons _) (hcut later)

/-- **A queued message is sent in parts.** -/
theorem plan_cut {m : EventOmsg} {x : Fin 16 × List UInt8} (h : m.message = some x) :
    ∃ part parts, (part :: parts).flatten = x.2 ∧
      ∀ later, m.plan later = cut x.1 (part :: parts) ++ later := by
  unfold EventOmsg.message at h
  unfold EventOmsg.plan
  cases htype : m.type with
  | nonFragmented =>
    rw [htype] at h
    cases h
    exact ⟨m.data, [], List.append_nil _, fun later => rfl⟩
  | fragmented =>
    rw [htype] at h
    obtain ⟨bs, hbs, rfl⟩ := Option.map_eq_some_iff.1 h
    exact fragments_cut hbs

/-! ## What the frames of a message make -/

/-- The opcodes that data frames may have here. -/
def expects : Assembly → Fin 16 → Bool
  | .idle, opcode => isData opcode
  | .inside _ _, opcode => opcode == 0

/-- The frame may come here, and what there is of its message is no longer than
`limit` and, if it is a text, UTF-8 so far. -/
structure Welcome (limit : Nat) (a : Assembly) (f : Frame) : Prop where
  place : a.expects f.opcode = true
  short : (a.joined f).length ≤ limit
  text : a.opcodeOf f = 1 →
    if f.fin then WellFormed (a.joined f) else ∃ t, WellFormed (a.joined f ++ t)

/-- The message is a data message that is no longer than `limit` and, if it is a
text, UTF-8. -/
structure Acceptable (limit : Nat) (x : Fin 16 × List UInt8) : Prop where
  data : isData x.1 = true
  short : x.2.length ≤ limit
  text : x.1 = 1 → WellFormed x.2

/-- A part of a message that is acceptable as a whole. -/
theorem Acceptable.welcome {limit : Nat} {opcode : Fin 16} {whole : List UInt8}
    (h : Acceptable limit (opcode, whole)) {f : Frame} (hplace : a.expects f.opcode = true)
    (hopcode : a.opcodeOf f = opcode) {rest : List UInt8} (hwhole : whole = a.joined f ++ rest)
    (hfin : f.fin = true → rest = []) : Welcome limit a f := by
  refine ⟨hplace, ?_, ?_⟩
  · have hshort : whole.length ≤ limit := h.short
    rw [hwhole, List.length_append] at hshort
    omega
  · intro h1
    have htext : WellFormed whole := h.text (hopcode.symm.trans h1)
    rw [hwhole] at htext
    by_cases hf : f.fin = true
    · rw [if_pos hf]
      rwa [hfin hf, List.append_nil] at htext
    · rw [if_neg hf]
      exact ⟨rest, htext⟩

/-- What the frames `fs` do to the reassembler `a`: they make the message `x`, and are
welcome if it is acceptable. -/
structure Makes (limit : Nat) (a : Assembly) (fs : List Frame) (x : Fin 16 × List UInt8) :
    Prop where
  messages : a.dataMessages fs = [x]
  after : a.afterAll fs = .idle
  welcome : Acceptable limit x → a.All (Welcome limit) fs

theorem dataMessages_cons (f : Frame) (fs : List Frame) :
    a.dataMessages (f :: fs) = a.dataMessage f ++ (a.after f).dataMessages fs := rfl

/-- The remaining parts of a message that has been begun. -/
theorem makes_rest (limit : Nat) (opcode : Fin 16) (parts : List (List UInt8))
    (body part : List UInt8) :
    Makes limit (.inside opcode body) ((cut 0 (part :: parts)).map Outline.bare)
      (opcode, body ++ (part :: parts).flatten) := by
  induction parts generalizing body part with
  | nil =>
    rw [List.flatten_singleton]
    refine ⟨rfl, rfl, ?_⟩
    intro hok
    exact ⟨hok.welcome rfl rfl (List.append_nil _).symm fun _ => rfl, trivial⟩
  | cons next parts ih =>
    have hnext := ih (body ++ part) next
    rw [List.append_assoc, ← List.flatten_cons] at hnext
    rw [cut_cons, List.map_cons]
    refine ⟨hnext.messages, hnext.after, ?_⟩
    intro hok
    refine ⟨hok.welcome rfl rfl (?_ : _ = _ ++ (next :: parts).flatten) ?_, hnext.welcome hok⟩
    · rw [List.flatten_cons, ← List.append_assoc]
      rfl
    · intro hf
      cases hf

/-- **The parts of a message make the message.** -/
theorem makes_cut (limit : Nat) {opcode : Fin 16} (hdata : ¬ 8 ≤ opcode.val)
    (part : List UInt8) (parts : List (List UInt8)) :
    Makes limit .idle ((cut opcode (part :: parts)).map Outline.bare)
      (opcode, (part :: parts).flatten) := by
  have hmsg : ∀ fin, idle.dataMessage (Outline.bare ⟨fin, opcode, part⟩) =
      if fin then [(opcode, part)] else [] := by
    intro fin
    rw [dataMessage, if_neg (show ¬ 8 ≤ (Outline.bare ⟨fin, opcode, part⟩).opcode.val from hdata)]
    cases fin <;> rfl
  have hafter : ∀ fin, idle.after (Outline.bare ⟨fin, opcode, part⟩) =
      if fin then idle else .inside opcode part := by
    intro fin
    rw [Assembly.after,
      if_neg (show ¬ 8 ≤ (Outline.bare ⟨fin, opcode, part⟩).opcode.val from hdata)]
    rfl
  cases parts with
  | nil =>
    rw [List.flatten_singleton]
    refine ⟨?_, hafter true, ?_⟩
    · change idle.dataMessage (Outline.bare ⟨true, opcode, part⟩) ++ [] = _
      rw [hmsg, List.append_nil]
      rfl
    · intro hok
      exact ⟨hok.welcome hok.data rfl (List.append_nil _).symm fun _ => rfl, trivial⟩
  | cons next parts =>
    have hnext := makes_rest limit opcode parts part next
    rw [cut_cons, List.map_cons, List.flatten_cons]
    refine ⟨?_, ?_, ?_⟩
    · rw [dataMessages_cons, hmsg, hafter]
      exact hnext.messages
    · change (idle.after (Outline.bare ⟨false, opcode, part⟩)).afterAll _ = _
      rw [hafter]
      exact hnext.after
    · intro hok
      refine ⟨hok.welcome hok.data rfl (rfl : _ = _ ++ (next :: parts).flatten) ?_, ?_⟩
      · intro hf
        cases hf
      · rw [hafter]
        exact hnext.welcome hok

/-! ## The frames of all messages -/

theorem not_ctrl {opcode : UInt8} (h : isCtrlFrame opcode = false) :
    ¬ 8 ≤ (wireOpcode opcode).val := by
  rw [isCtrlFrame_eq] at h
  exact of_decide_eq_false h

theorem message_opcode {m : EventOmsg} {x : Fin 16 × List UInt8} (h : m.message = some x) :
    x.1 = wireOpcode m.opcode := by
  unfold EventOmsg.message at h
  cases htype : m.type with
  | nonFragmented =>
    rw [htype] at h
    cases h
    rfl
  | fragmented =>
    rw [htype] at h
    obtain ⟨bs, -, rfl⟩ := Option.map_eq_some_iff.1 h
    rfl

/-- **The frames of some data messages make these messages**, and are welcome if the
messages are acceptable. -/
theorem plans_makes (limit : Nat) {ms : List EventOmsg}
    (hdata : ∀ m ∈ ms, isCtrlFrame m.opcode = false) (hends : ∀ m ∈ ms, m.message.isSome) :
    idle.dataMessages ((plans ms []).map Outline.bare) = ms.filterMap EventOmsg.message ∧
      ((∀ m ∈ ms, ∀ x, m.message = some x → Acceptable limit x) →
        idle.All (Welcome limit) ((plans ms []).map Outline.bare)) := by
  induction ms with
  | nil => exact ⟨rfl, fun _ => trivial⟩
  | cons m ms ih =>
    have hm := not_ctrl (hdata m (List.mem_cons_self ..))
    obtain ⟨x, hx⟩ := Option.isSome_iff_exists.1 (hends m (List.mem_cons_self ..))
    obtain ⟨hmsgs, hall⟩ := ih (fun m hm => hdata m (List.mem_cons_of_mem _ hm))
      (fun m hm => hends m (List.mem_cons_of_mem _ hm))
    obtain ⟨part, parts, hflat, hcut⟩ := plan_cut hx
    rw [← message_opcode hx] at hm
    have hmakes := makes_cut limit hm part parts
    rw [hflat] at hmakes
    have hplans : plans (m :: ms) [] = cut x.1 (part :: parts) ++ plans ms [] := hcut _
    rw [hplans, List.map_append]
    refine ⟨?_, ?_⟩
    · unfold dataMessages
      rw [along_append, hmakes.after, List.filterMap_cons_some hx, ← hmsgs]
      exact congrArg (· ++ _) hmakes.messages
    · intro hok
      rw [all_append, hmakes.after]
      exact ⟨hmakes.welcome (hok m (List.mem_cons_self ..) x hx),
        hall fun m hm => hok m (List.mem_cons_of_mem _ hm)⟩

/-! ## Frames that come in between -/

theorem opcodeOf_ctrl {f : Frame} (hc : 8 ≤ f.opcode.val) : a.opcodeOf f = f.opcode := by
  cases a with
  | idle => rfl
  | inside opcode body => exact if_pos hc

theorem ctrlOutlines_cons (f : Frame) (fs : List Frame) :
    ctrlOutlines (f :: fs) =
      if 8 ≤ f.opcode.val then f.outline :: ctrlOutlines fs else ctrlOutlines fs := by
  unfold ctrlOutlines
  rw [List.map_cons, List.filter_cons]
  have hctrl : f.outline.isCtrl = decide (8 ≤ f.opcode.val) := rfl
  rw [hctrl]
  by_cases hc : 8 ≤ f.opcode.val
  · rw [if_pos hc, decide_eq_true hc]
    rfl
  · rw [if_neg hc, decide_eq_false hc]
    rfl

/-- A data frame that is welcome is legal, and fits. -/
theorem Welcome.legal {cfg : RxConfig} {f : Frame} (h : Welcome cfg.limit a f) (hrsv : f.rsv = 0)
    (hkey : f.key.isSome = cfg.server) : Legal cfg.server a f ∧ Fits cfg a f := by
  refine ⟨⟨?_, h.text⟩, ?_⟩
  · have hplace := h.place
    unfold accepts
    rw [hrsv, hkey]
    cases a with
    | idle =>
      have hdata : isData f.opcode = true := hplace
      simp [hdata]
    | inside opcode body =>
      have hzero : (f.opcode == 0) = true := hplace
      simp [hzero]
  · have hshort := h.short
    rw [joined, List.length_append] at hshort
    have hkept : (kept cfg (a.opcodeOf f) (a.before f)).length ≤ (a.before f).length := by
      unfold kept
      split_ifs
      · exact Nat.le_refl _
      · exact Nat.zero_le _
    unfold Fits lengthOf
    omega

/-- A control frame is legal wherever it comes. -/
theorem ctrl_legal {cfg : RxConfig} {f : Frame} (hknown : isKnownCtrl f.opcode = true)
    (hshort : f.payload.length ≤ cfg.limit) (hrsv : f.rsv = 0)
    (hkey : f.key.isSome = cfg.server) : Legal cfg.server a f ∧ Fits cfg a f := by
  have hc := isKnownCtrl_ctrl hknown
  have hopcode := opcodeOf_ctrl (a := a) hc
  refine ⟨⟨?_, ?_⟩, ?_⟩
  · unfold accepts
    rw [hrsv, hkey]
    cases a <;> simp [hknown]
  · intro h1
    rw [hopcode] at h1
    rw [h1] at hc
    exact absurd hc (by decide)
  · have hbefore : a.before f = [] := by
      cases a with
      | idle => rfl
      | inside opcode body => exact if_pos hc
    unfold Fits lengthOf
    rw [hbefore]
    unfold kept
    split_ifs <;> simpa using hshort

/-- **Legal data frames stay legal when control frames come between them.** -/
theorem all_legal {cfg : RxConfig} {fs : List Frame}
    (hlegit : ∀ f ∈ fs, f.rsv = 0 ∧ f.key.isSome = cfg.server)
    (hdata : a.All (Welcome cfg.limit) ((dataOutlines fs).map Outline.bare))
    (hctrl : ∀ o ∈ ctrlOutlines fs, isKnownCtrl o.opcode = true ∧ o.payload.length ≤ cfg.limit) :
    a.All (fun a f => Legal cfg.server a f ∧ Fits cfg a f) fs := by
  induction fs generalizing a with
  | nil => trivial
  | cons f fs ih =>
    obtain ⟨hrsv, hkey⟩ := hlegit f (List.mem_cons_self ..)
    have hrest := fun g hg => hlegit g (List.mem_cons_of_mem f hg)
    rw [dataOutlines_cons] at hdata
    rw [ctrlOutlines_cons] at hctrl
    by_cases hc : 8 ≤ f.opcode.val
    · rw [if_pos hc] at hdata hctrl
      obtain ⟨hknown, hshort⟩ := hctrl f.outline (List.mem_cons_self ..)
      refine ⟨ctrl_legal hknown hshort hrsv hkey, ?_⟩
      rw [after_ctrl hc]
      exact ih hrest hdata fun o ho => hctrl o (List.mem_cons_of_mem _ ho)
    · rw [if_neg hc] at hdata hctrl
      obtain ⟨hwelcome, hdata⟩ := hdata
      exact ⟨Welcome.legal ⟨hwelcome.place, hwelcome.short, hwelcome.text⟩ hrsv hkey,
        ih hrest hdata hctrl⟩

/-! ## What is delivered -/

end Assembly

/-- The message that a call delivers. -/
def Call.message : Call → Option (Fin 16 × List UInt8)
  | .msgRecv _ opcode msg _ => some (wireOpcode opcode, msg)
  | _ => none

/-- Is this a data message? -/
def isDataMessage (x : Fin 16 × List UInt8) : Bool := decide (x.1.val < 8)

/-- The data messages that have been delivered. -/
def Io.deliveredData (io : Io) : List (Fin 16 × List UInt8) :=
  (io.calls.filterMap Call.message).filter isDataMessage

/-- The control messages that have been delivered. -/
def Io.deliveredCtrl (io : Io) : List (Fin 16 × List UInt8) :=
  (io.calls.filterMap Call.message).filter fun x => !isDataMessage x

namespace Assembly

variable {a : Assembly} {cfg : RxConfig}

theorem message_msgCall (opcode : Fin 16) (msg : List UInt8) :
    (msgCall opcode msg).message = some (opcode, msg) := by
  have hopcode : wireOpcode (UInt8.ofNat opcode.val) = opcode := by
    revert opcode
    decide
  change some (wireOpcode (UInt8.ofNat opcode.val), msg) = _
  rw [hopcode]

/-- The messages that are delivered, when they are kept. -/
theorem message_delivery (hbuf : cfg.noBuffering = false) (f : Frame) :
    (a.delivery cfg f).filterMap Call.message = (a.message f).toList := by
  unfold delivery
  cases a.message f with
  | none => rfl
  | some m =>
    have hkept : kept cfg m.1 m.2 = m.2 := by
      unfold kept RxConfig.buffers
      rw [hbuf]
      rfl
    change [msgCall m.1 (kept cfg m.1 m.2)].filterMap Call.message = [m]
    rw [hkept, List.filterMap_cons_some (message_msgCall m.1 m.2)]
    rfl

/-- **The messages that legal frames make are data messages and control messages.** -/
theorem allMessages_filter {fs : List Frame} (ha : a.Ok) (hlegal : a.All (Legal cfg.server) fs)
    (hfin : ∀ f ∈ fs, 8 ≤ f.opcode.val → f.fin = true) :
    (a.allMessages fs).filter isDataMessage = a.dataMessages fs ∧
      (a.allMessages fs).filter (fun x => !isDataMessage x) = ctrlMessages fs := by
  induction fs generalizing a with
  | nil => exact ⟨rfl, rfl⟩
  | cons f fs ih =>
    obtain ⟨hf, hrest⟩ := hlegal
    obtain ⟨hdata, hctrl⟩ := ih (hf.after_ok ha) hrest
      (fun g hg => hfin g (List.mem_cons_of_mem f hg))
    have hsplit : a.allMessages (f :: fs) =
        (a.message f).toList ++ (a.after f).allMessages fs := rfl
    rw [hsplit, List.filter_append, List.filter_append, hdata, hctrl, dataMessages_cons]
    unfold ctrlMessages
    rw [ctrlOutlines_cons]
    by_cases hc : 8 ≤ f.opcode.val
    · have hmsg : a.message f = some (f.opcode, f.payload) := by
        rw [message, if_pos (hfin f (List.mem_cons_self ..) hc), opcodeOf_ctrl hc, joined_ctrl hc]
      have hkind : isDataMessage (f.opcode, f.payload) = false :=
        decide_eq_false (Nat.not_lt.2 hc)
      rw [hmsg, dataMessage_ctrl hc, if_pos hc]
      simp [hkind, Frame.outline]
    · rw [if_neg hc, dataMessage, if_neg hc]
      cases hmsg : a.message f with
      | none => exact ⟨rfl, rfl⟩
      | some m =>
        have hlt : m.1.val < 8 := by
          unfold message at hmsg
          split_ifs at hmsg
          cases hmsg
          cases a with
          | idle => exact Nat.lt_of_not_le hc
          | inside opcode body =>
            have hopcode : (inside opcode body).opcodeOf f = opcode := if_neg hc
            rw [hopcode]
            exact Nat.lt_of_not_le (isData_not_ctrl ha.1)
        have hkind : isDataMessage m = true := decide_eq_true hlt
        simp [hkind]

end Assembly

end Wslay
