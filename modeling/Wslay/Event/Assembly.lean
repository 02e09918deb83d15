import Wslay.Event.Cuts

/-!
# Reassembling messages from frames

The reference reassembler: which frames are legal, and the messages they make.
The receiver, given whole frames, is this reassembler together with its checks
of length and of text.

* `Assembly` — the reference reassembler.
* `Assembly.report` — what a frame comes to, the checks included.
* `Assembly.react` — **so the receiver reacts**.
-/

namespace Wslay

open Utf8 (read)

/-! ## The reference reassembler -/

/-- Between two messages, or inside a data message of which `body` has come. -/
inductive Assembly where
  | idle
  | inside (opcode : Fin 16) (body : List UInt8)
  deriving DecidableEq, Repr

namespace Assembly

/-- The frame is legal. -/
def accepts (server : Bool) (a : Assembly) (f : Frame) : Bool :=
  f.rsv == 0 && f.key.isSome == server &&
    match a with
    | .idle => isData f.opcode || isKnownCtrl f.opcode
    | .inside _ _ => f.opcode == 0 || isKnownCtrl f.opcode

/-- The opcode of the message that the frame belongs to. -/
def opcodeOf (a : Assembly) (f : Frame) : Fin 16 :=
  match a with
  | .idle => f.opcode
  | .inside opcode _ => if 8 ≤ f.opcode.val then f.opcode else opcode

/-- What has come of that message before. -/
def before (a : Assembly) (f : Frame) : List UInt8 :=
  match a with
  | .idle => []
  | .inside _ body => if 8 ≤ f.opcode.val then [] else body

/-- The message up to this frame. -/
def joined (a : Assembly) (f : Frame) : List UInt8 := a.before f ++ f.payload

/-- What comes after the frame. -/
def after (a : Assembly) (f : Frame) : Assembly :=
  if 8 ≤ f.opcode.val then a
  else if f.fin then .idle
  else .inside (a.opcodeOf f) (a.joined f)

/-- The message that is complete with the frame. -/
def message (a : Assembly) (f : Frame) : Option (Fin 16 × List UInt8) :=
  if f.fin then some (a.opcodeOf f, a.joined f) else none

/-! ## The state of the receiver -/

/-- What the receiver keeps of a message. -/
def kept (cfg : RxConfig) (opcode : Fin 16) (body : List UInt8) : List UInt8 :=
  if cfg.buffers opcode then body else []

/-- The draft of a message of which `body` has come. -/
def draft (cfg : RxConfig) (opcode : Fin 16) (body : List UInt8) : Draft :=
  ⟨opcode, kept cfg opcode body, (kept cfg opcode body).length,
    if opcode = 1 then (read [] body).getD [] else []⟩

/-- The message that waits for its next frame. -/
def waiting (cfg : RxConfig) : Assembly → Option Draft
  | .idle => none
  | .inside opcode body => some (draft cfg opcode body)

/-- The state of the receiver. -/
def rx (cfg : RxConfig) (a : Assembly) : Rx := ⟨a.waiting cfg, none⟩

/-- Inside a message there is a data message, whose text can be read. -/
def Ok : Assembly → Prop
  | .idle => True
  | .inside opcode body => isData opcode = true ∧ (opcode = 1 → (read [] body).isSome)

theorem ok_idle : idle.Ok := trivial

/-! ## What a frame comes to -/

/-- The length that is checked. -/
def lengthOf (cfg : RxConfig) (a : Assembly) (f : Frame) : Nat :=
  (kept cfg (a.opcodeOf f) (a.before f)).length + f.payload.length

/-- What comes of a receiver that gives up. -/
def giveUp (q : Bool) (calls : List Call) (code : Nat) : Report :=
  ⟨calls, if q then [.close code []] else [], .off none (if q then 0 else 1)⟩

/-- **What a frame comes to**, other than a Close. -/
def report (q : Bool) (cfg : RxConfig) (a : Assembly) (f : Frame) : Report :=
  if a.accepts cfg.server f = false then giveUp q [] codeProtocolError
  else if cfg.limit < a.lengthOf cfg f then giveUp q [] codeMessageTooBig
  else if a.opcodeOf f = 1 ∧ read [] (a.joined f) = none then
    giveUp q [f.header.startCall] codeInvalidFramePayloadData
  else if a.opcodeOf f = 1 ∧ f.fin = true ∧ read [] (a.joined f) ≠ some [] then
    giveUp q [f.header.startCall, .frameRecvChunk f.payload] codeInvalidFramePayloadData
  else
    ⟨[f.header.startCall, .frameRecvChunk f.payload, .frameRecvEnd] ++
        if f.fin then [msgCall (a.opcodeOf f) (kept cfg (a.opcodeOf f) (a.joined f))] else [],
      if f.opcode = 9 ∧ q = true then [.pong f.payload] else [], .live ((a.after f).rx cfg)⟩

end Assembly

/-! ## The receiver reacts like this -/

namespace Assembly

variable {q : Bool} {cfg : RxConfig} {a : Assembly} {f : Frame}

/-- A frame that is not legal is not let in. -/
theorem admits_error (ha : a.Ok) (hno : a.accepts cfg.server f = false) :
    Rx.admits cfg (a.waiting cfg) f.header = .error codeProtocolError := by
  unfold Rx.admits
  by_cases hbits : f.header.rsv ≠ 0 ∨ f.header.key.isSome ≠ cfg.server
  · rw [if_pos hbits]
  · rw [if_neg hbits]
    rw [not_or, not_not, not_not] at hbits
    obtain ⟨hrsv, hkey⟩ := hbits
    have hrsv' : f.rsv = 0 := hrsv
    have hkey' : f.key.isSome = cfg.server := hkey
    have hnone : belongs (a.waiting cfg) f.header.opcode = none := by
      unfold accepts at hno
      rw [hrsv', hkey'] at hno
      simp only [beq_self_eq_true, Bool.and_self, Bool.true_and] at hno
      cases a with
      | idle =>
        have hno' : (isData f.header.opcode || isKnownCtrl f.header.opcode) = false := hno
        exact if_neg (by simp [hno'])
      | inside opcode body =>
        simp only [Bool.or_eq_false_iff, beq_eq_false_iff_ne] at hno
        have hctrl : ¬ isKnownCtrl f.header.opcode = true := by
          change ¬ isKnownCtrl f.opcode = true
          simp [hno.2]
        exact (if_neg hno.1).trans (if_neg hctrl)
    rw [hnone]

/-- The message that a legal frame belongs to. -/
theorem belongs_accepts (ha : a.Ok) (hacc : a.accepts cfg.server f = true) :
    f.header.rsv = 0 ∧ f.header.key.isSome = cfg.server ∧
      belongs (a.waiting cfg) f.header.opcode =
        some (draft cfg (a.opcodeOf f) (a.before f),
          if 8 ≤ f.opcode.val then a.waiting cfg else none) ∧
      (8 ≤ f.opcode.val ↔ 8 ≤ (a.opcodeOf f).val) := by
  unfold accepts at hacc
  simp only [Bool.and_eq_true, beq_iff_eq] at hacc
  obtain ⟨⟨hrsv, hkey⟩, hop⟩ := hacc
  refine ⟨hrsv, hkey, ?_⟩
  -- a message of which nothing has come
  have hstart : ∀ opcode, draft cfg opcode [] = .start opcode := by
    intro opcode
    simp [draft, kept, Draft.start]
  cases a with
  | idle =>
    refine ⟨?_, Iff.rfl⟩
    have hknown : (isData f.header.opcode || isKnownCtrl f.header.opcode) = true := hop
    change belongs none f.header.opcode = some (draft cfg f.opcode [], if _ then none else none)
    rw [belongs, if_pos hknown, hstart, ite_self]
    rfl
  | inside opcode body =>
    have hdata := isData_not_ctrl ha.1
    simp only [Bool.or_eq_true, beq_iff_eq] at hop
    by_cases h0 : f.opcode = 0
    · have hlow : ¬ 8 ≤ f.opcode.val := by
        rw [h0]
        decide
      refine ⟨?_, ?_⟩
      · change belongs (some (draft cfg opcode body)) f.opcode = _
        simp only [belongs, if_pos h0, opcodeOf, before, if_neg hlow]
      · simp only [opcodeOf, if_neg hlow]
        exact ⟨fun h => absurd h hlow, fun h => absurd h hdata⟩
    · have hctrl := hop.resolve_left h0
      have hhigh := isKnownCtrl_ctrl hctrl
      refine ⟨?_, ?_⟩
      · change belongs (some (draft cfg opcode body)) f.opcode = _
        simp only [belongs, if_neg h0, if_pos hctrl, opcodeOf, before, if_pos hhigh, hstart]
        rfl
      · simp only [opcodeOf, if_pos hhigh]

theorem buffers_opcodeOf (hkind : 8 ≤ f.opcode.val ↔ 8 ≤ (a.opcodeOf f).val) :
    cfg.buffers f.header.opcode = cfg.buffers (a.opcodeOf f) :=
  cfg.buffers_kind hkind

/-- A legal frame begins if it is not too long. -/
theorem admits_accepts (ha : a.Ok) (hacc : a.accepts cfg.server f = true)
    (hsmall : a.lengthOf cfg f < 2 ^ 64) :
    Rx.admits cfg (a.waiting cfg) f.header =
      if cfg.limit < a.lengthOf cfg f then .error codeMessageTooBig
      else .ok (⟨f.header, 0, (draft cfg (a.opcodeOf f) (a.before f)).extend cfg f.header⟩,
        if 8 ≤ f.opcode.val then a.waiting cfg else none) := by
  obtain ⟨hrsv, hkey, hbelongs, -⟩ := belongs_accepts ha hacc
  have hlen : ((draft cfg (a.opcodeOf f) (a.before f)).length + f.header.length) % 2 ^ 64 =
      a.lengthOf cfg f := Nat.mod_eq_of_lt hsmall
  rw [Rx.admits, if_neg (by simp [hrsv, hkey]), hbelongs]
  simp only
  rw [hlen]

/-- The text of a message can be read so far. -/
theorem Ok.before (ha : a.Ok) (h1 : a.opcodeOf f = 1) : (read [] (a.before f)).isSome := by
  cases a with
  | idle => rfl
  | inside opcode body =>
    unfold opcodeOf at h1
    unfold Assembly.before
    by_cases hctrl : 8 ≤ f.opcode.val
    · simp only [if_pos hctrl]
      rfl
    · simp only [if_neg hctrl] at h1 ⊢
      exact ha.2 h1

/-- A Close is a message of its own. -/
theorem opcodeOf_eq_close (ha : a.Ok) : a.opcodeOf f = 8 ↔ f.opcode = 8 := by
  cases a with
  | idle => exact Iff.rfl
  | inside opcode body =>
    unfold opcodeOf
    by_cases hctrl : 8 ≤ f.opcode.val
    · simp only [if_pos hctrl]
    · simp only [if_neg hctrl]
      refine ⟨fun h => ?_, fun h => absurd (by rw [h]; decide) hctrl⟩
      have hdata := ha.1
      rw [h] at hdata
      cases hdata

/-- A Ping is a message of its own. -/
theorem opcodeOf_eq_ping (ha : a.Ok) : a.opcodeOf f = 9 ↔ f.opcode = 9 := by
  cases a with
  | idle => exact Iff.rfl
  | inside opcode body =>
    unfold opcodeOf
    by_cases hctrl : 8 ≤ f.opcode.val
    · simp only [if_pos hctrl]
    · simp only [if_neg hctrl]
      refine ⟨fun h => ?_, fun h => absurd (by rw [h]; decide) hctrl⟩
      have hdata := ha.1
      rw [h] at hdata
      cases hdata

/-- The text goes on with the payload of the frame. -/
theorem scan_payload (ha : a.Ok) (h8 : a.opcodeOf f ≠ 8) :
    ((draft cfg (a.opcodeOf f) (a.before f)).extend cfg f.header).scan 2 f.payload =
      if a.opcodeOf f = 1 then read [] (a.joined f) else some [] := by
  have hop : ((draft cfg (a.opcodeOf f) (a.before f)).extend cfg f.header).opcode =
      a.opcodeOf f := by
    unfold Draft.extend
    split_ifs <;> rfl
  have htext : ((draft cfg (a.opcodeOf f) (a.before f)).extend cfg f.header).text =
      if a.opcodeOf f = 1 then (read [] (a.before f)).getD [] else [] := by
    unfold Draft.extend
    split_ifs <;> simp_all [draft]
  rw [Draft.scan, hop, htext]
  by_cases h1 : a.opcodeOf f = 1
  · simp only [if_pos h1]
    obtain ⟨t, ht⟩ := Option.isSome_iff_exists.1 (ha.before h1)
    rw [joined, Utf8.read_append, ht, Option.getD_some, Option.bind_some]
  · simp only [if_neg h1, if_neg h8]

/-- The draft after the frame. -/
theorem draft_advance (hkind : 8 ≤ f.opcode.val ↔ 8 ≤ (a.opcodeOf f).val)
    (hsmall : a.lengthOf cfg f < 2 ^ 64) {text : List Utf8.Range}
    (htext : text = if a.opcodeOf f = 1 then (read [] (a.joined f)).getD [] else []) :
    (Progress.advance cfg
        ⟨f.header, 0, (draft cfg (a.opcodeOf f) (a.before f)).extend cfg f.header⟩
        f.payload text).draft = draft cfg (a.opcodeOf f) (a.joined f) := by
  have hbuf : cfg.buffers f.header.opcode = cfg.buffers (a.opcodeOf f) := buffers_opcodeOf hkind
  unfold lengthOf kept at hsmall
  unfold Progress.advance Draft.extend draft kept
  rw [hbuf, htext]
  by_cases hb : cfg.buffers (a.opcodeOf f) = true
  · simp only [if_pos hb] at hsmall ⊢
    have hlen : ((a.before f).length + f.header.length) % 2 ^ 64 = (a.joined f).length := by
      rw [joined, List.length_append]
      exact Nat.mod_eq_of_lt hsmall
    rw [hlen]
    rfl
  · simp only [if_neg hb]

/-- The verdict on a message that is complete. -/
theorem verdict_draft (hdel : cfg.delivers = true) {opcode : Fin 16} (h8 : opcode ≠ 8)
    (body : List UInt8) (rest : Option Draft) :
    (draft cfg opcode body).verdict cfg rest =
      .done opcode (kept cfg opcode body) ⟨rest, none⟩ := by
  have hgather : (draft cfg opcode body).gather = some (kept cfg opcode body) := by
    unfold Draft.gather draft
    simp only
    by_cases h0 : (kept cfg opcode body).length = 0
    · rw [if_pos h0, List.length_eq_zero_iff.1 h0]
    · rw [if_neg h0, if_pos trivial]
  have hop : (draft cfg opcode body).opcode = opcode := rfl
  rw [Draft.verdict, hdel, Bool.true_or, Bool.true_or, if_pos rfl, hgather]
  simp only
  rw [hop, if_neg fun h => h8 h.1]

theorem joined_ctrl (hc : 8 ≤ f.opcode.val) : a.joined f = f.payload := by
  cases a with
  | idle => rfl
  | inside opcode body =>
    rw [joined, before, if_pos hc]
    rfl

theorem kept_ctrl {opcode : Fin 16} (hc : 8 ≤ opcode.val) (body : List UInt8) :
    kept cfg opcode body = body :=
  if_pos (cfg.buffers_ctrl hc)

/-- A scan that goes through says what the automaton waits for. -/
theorem text_of_scan {text : List Utf8.Range}
    (hsome : (if a.opcodeOf f = 1 then read [] (a.joined f) else some []) = some text) :
    ¬ (a.opcodeOf f = 1 ∧ read [] (a.joined f) = none) ∧
      text = if a.opcodeOf f = 1 then (read [] (a.joined f)).getD [] else [] := by
  by_cases h1 : a.opcodeOf f = 1
  · rw [if_pos h1] at hsome ⊢
    rw [hsome]
    exact ⟨fun h => (by cases h.2), rfl⟩
  · rw [if_neg h1] at hsome ⊢
    exact ⟨fun h => h1 h.1, (Option.some.inj hsome).symm⟩

/-- The end of a frame whose payload has come. -/
theorem finish_draft (hdel : cfg.delivers = true) (h8 : a.opcodeOf f ≠ 8)
    (hread : ¬ (a.opcodeOf f = 1 ∧ read [] (a.joined f) = none)) {p : Progress}
    (hheader : p.header = f.header) (hdraft : p.draft = draft cfg (a.opcodeOf f) (a.joined f))
    (rest : Option Draft) :
    p.finish cfg rest =
      if a.opcodeOf f = 1 ∧ f.fin = true ∧ read [] (a.joined f) ≠ some [] then
        ⟨[], .reject codeInvalidFramePayloadData⟩
      else ⟨[.frameRecvEnd], if f.fin then
        .done (a.opcodeOf f) (kept cfg (a.opcodeOf f) (a.joined f)) ⟨rest, none⟩
        else .more ⟨some (draft cfg (a.opcodeOf f) (a.joined f)), none⟩⟩ := by
  have hbad : (p.header.fin = true ∧ (p.draft.opcode = 1 ∨ p.draft.opcode = 8) ∧
      p.draft.text ≠ []) ↔
      a.opcodeOf f = 1 ∧ f.fin = true ∧ read [] (a.joined f) ≠ some [] := by
    rw [hheader, hdraft]
    change f.fin = true ∧ (a.opcodeOf f = 1 ∨ a.opcodeOf f = 8) ∧
      (if a.opcodeOf f = 1 then (read [] (a.joined f)).getD [] else []) ≠ [] ↔ _
    by_cases h1 : a.opcodeOf f = 1
    · obtain ⟨t, ht⟩ := Option.ne_none_iff_exists'.1 fun hr => hread ⟨h1, hr⟩
      simp [h1, ht]
    · simp [h1, h8]
  unfold Progress.finish
  by_cases hstop : a.opcodeOf f = 1 ∧ f.fin = true ∧ read [] (a.joined f) ≠ some []
  · rw [if_pos hstop, if_pos (hbad.2 hstop)]
  · rw [if_neg hstop, if_neg fun h => hstop (hbad.1 h), hheader, hdraft, verdict_draft hdel h8]
    rfl

/-- The report of a frame that completes a message. -/
theorem report_done (ha : a.Ok) (hkind : 8 ≤ f.opcode.val ↔ 8 ≤ (a.opcodeOf f).val)
    (h8 : a.opcodeOf f ≠ 8) (hfin : f.fin = true) (calls : List Call) :
    Reaction.report q ⟨calls, .done (a.opcodeOf f) (kept cfg (a.opcodeOf f) (a.joined f))
        ⟨if 8 ≤ f.opcode.val then a.waiting cfg else none, none⟩⟩ =
      ⟨calls ++ [msgCall (a.opcodeOf f) (kept cfg (a.opcodeOf f) (a.joined f))],
        if f.opcode = 9 ∧ q = true then [.pong f.payload] else [], .live ((a.after f).rx cfg)⟩ := by
  have hafter : (⟨if 8 ≤ f.opcode.val then a.waiting cfg else none, none⟩ : Rx) =
      (a.after f).rx cfg := by
    rw [rx, after, if_pos hfin]
    split_ifs <;> rfl
  unfold Reaction.report
  simp only [if_neg h8, opcodeOf_eq_ping ha, hafter]
  by_cases h9 : f.opcode = 9
  · have hctrl : 8 ≤ f.opcode.val := by
      rw [h9]
      decide
    have hone : kept cfg (a.opcodeOf f) (a.joined f) = f.payload := by
      rw [kept_ctrl (hkind.1 hctrl), joined_ctrl hctrl]
    simp only [h9, true_and, hone]
  · simp only [h9, false_and, if_false]

/-- The report of a frame that another of its message follows. -/
theorem report_more (hv : f.header.Valid) (hfin : f.fin = false) (calls : List Call) :
    Reaction.report q ⟨calls, .more ⟨some (draft cfg (a.opcodeOf f) (a.joined f)), none⟩⟩ =
      ⟨calls, if f.opcode = 9 ∧ q = true then [.pong f.payload] else [],
        .live ((a.after f).rx cfg)⟩ := by
  have hlow : ¬ 8 ≤ f.opcode.val := fun hc => by
    have := (hv.2 (by rw [Header.isCtrl, decide_eq_true_eq]; exact hc)).1
    rw [show f.header.fin = f.fin from rfl, hfin] at this
    cases this
  have h9 : f.opcode ≠ 9 := fun h => hlow (by rw [h]; decide)
  have hafter : (a.after f).rx cfg =
      ⟨some (draft cfg (a.opcodeOf f) (a.joined f)), none⟩ := by
    rw [rx, after, if_neg hlow, hfin]
    rfl
  simp only [hafter, h9, false_and, if_false]
  rfl

/-- A frame that has been let in, and is not too long. -/
theorem react_accepted (hdel : cfg.delivers = true) (ha : a.Ok) (hv : f.header.Valid)
    (h8 : a.opcodeOf f ≠ 8) (hkind : 8 ≤ f.opcode.val ↔ 8 ≤ (a.opcodeOf f).val)
    (hsmall : a.lengthOf cfg f < 2 ^ 64) {p : Progress}
    (hp : p = ⟨f.header, 0, (draft cfg (a.opcodeOf f) (a.before f)).extend cfg f.header⟩) :
    Reaction.report q ⟨[f.header.startCall] ++
        (p.piece 2 cfg (if 8 ≤ f.opcode.val then a.waiting cfg else none) f.payload).calls,
      (p.piece 2 cfg (if 8 ≤ f.opcode.val then a.waiting cfg else none) f.payload).verdict⟩ =
    if a.opcodeOf f = 1 ∧ read [] (a.joined f) = none then
      giveUp q [f.header.startCall] codeInvalidFramePayloadData
    else if a.opcodeOf f = 1 ∧ f.fin = true ∧ read [] (a.joined f) ≠ some [] then
      giveUp q [f.header.startCall, .frameRecvChunk f.payload] codeInvalidFramePayloadData
    else
      ⟨[f.header.startCall, .frameRecvChunk f.payload, .frameRecvEnd] ++
          if f.fin then [msgCall (a.opcodeOf f) (kept cfg (a.opcodeOf f) (a.joined f))] else [],
        if f.opcode = 9 ∧ q = true then [.pong f.payload] else [], .live ((a.after f).rx cfg)⟩ := by
  have hscan : p.draft.scan 2 f.payload =
      if a.opcodeOf f = 1 then read [] (a.joined f) else some [] := by
    rw [hp]
    exact scan_payload ha h8
  have hlen : p.off + f.payload.length = p.header.length := by
    rw [hp]
    exact Nat.zero_add _
  rcases p.piece_cases 2 cfg (if 8 ≤ f.opcode.val then a.waiting cfg else none) f.payload with
    ⟨hnone, heq⟩ | ⟨text, hsome, ⟨-, heq⟩ | ⟨hne, -⟩⟩
  · -- the text is rejected at once
    rw [hscan] at hnone
    split_ifs at hnone with h1
    rw [heq, if_pos ⟨h1, hnone⟩]
    rfl
  · obtain ⟨hread, htext⟩ := text_of_scan (hscan.symm.trans hsome)
    have hdraft : (p.advance cfg f.payload text).draft =
        draft cfg (a.opcodeOf f) (a.joined f) := by
      rw [hp]
      exact draft_advance hkind hsmall htext
    have hheader : (p.advance cfg f.payload text).header = f.header := by
      rw [hp]
      rfl
    rw [if_neg hread, heq, finish_draft hdel h8 hread hheader hdraft]
    by_cases hbad : a.opcodeOf f = 1 ∧ f.fin = true ∧ read [] (a.joined f) ≠ some []
    · rw [if_pos hbad, if_pos hbad]
      rfl
    · rw [if_neg hbad, if_neg hbad]
      cases hfin : f.fin with
      | true => exact report_done ha hkind h8 hfin _
      | false => exact report_more hv hfin _
  · exact absurd hlen hne

/-- **So the receiver reacts** to a whole frame. -/
theorem react (hdel : cfg.delivers = true) (ha : a.Ok) (hv : f.header.Valid) (h8 : f.opcode ≠ 8)
    (hsmall : a.accepts cfg.server f = true → a.lengthOf cfg f < 2 ^ 64) :
    (a.rx cfg).react q cfg f.item = a.report q cfg f := by
  change Reaction.report q ((a.rx cfg).piece 2 cfg f.header f.payload) = _
  unfold report
  cases hacc : a.accepts cfg.server f with
  | false =>
    have herr : (a.rx cfg).enter cfg f.header = .error codeProtocolError := by
      unfold Rx.enter rx
      simp only [admits_error ha hacc]
    rw [if_pos rfl, Rx.piece_error herr]
    rfl
  | true =>
    obtain ⟨-, -, -, hkind⟩ := belongs_accepts ha hacc
    have hadmits := admits_accepts ha hacc (hsmall hacc)
    rw [if_neg (by simp)]
    by_cases hbig : cfg.limit < a.lengthOf cfg f
    · rw [if_pos hbig] at hadmits ⊢
      have herr : (a.rx cfg).enter cfg f.header = .error codeMessageTooBig := by
        unfold Rx.enter rx
        simp only [hadmits]
      rw [Rx.piece_error herr]
      rfl
    · rw [if_neg hbig] at hadmits ⊢
      have hok : (a.rx cfg).enter cfg f.header = .ok ([f.header.startCall],
          ⟨f.header, 0, (draft cfg (a.opcodeOf f) (a.before f)).extend cfg f.header⟩,
          if 8 ≤ f.opcode.val then a.waiting cfg else none) := by
        unfold Rx.enter rx
        simp only [hadmits]
      rw [Rx.piece_ok hok]
      exact react_accepted hdel ha hv (fun h => h8 ((opcodeOf_eq_close ha).1 h)) hkind
        (hsmall hacc) rfl

/-! ## Runs of frames -/

/-- What some frames come to. -/
def run (q : Bool) (cfg : RxConfig) : Assembly → List Frame → Report
  | a, [] => .start (a.rx cfg)
  | a, f :: fs => (a.report q cfg f).andThen fun _ => (a.after f).run q cfg fs

/-- The receiver goes on where the reassembler does. -/
theorem report_live {rx' : Rx} (h : (a.report q cfg f).fate = .live rx') :
    a.accepts cfg.server f = true ∧ a.lengthOf cfg f ≤ cfg.limit ∧
      (a.opcodeOf f = 1 → ∃ t, read [] (a.joined f) = some t ∧ (f.fin = true → t = [])) ∧
      rx' = (a.after f).rx cfg := by
  unfold report at h
  cases hacc : a.accepts cfg.server f with
  | false =>
    rw [hacc, if_pos rfl] at h
    cases h
  | true =>
    rw [hacc, if_neg (by simp)] at h
    by_cases hbig : cfg.limit < a.lengthOf cfg f
    · rw [if_pos hbig] at h
      cases h
    · rw [if_neg hbig] at h
      by_cases hnone : a.opcodeOf f = 1 ∧ read [] (a.joined f) = none
      · rw [if_pos hnone] at h
        cases h
      · rw [if_neg hnone] at h
        by_cases hsome : a.opcodeOf f = 1 ∧ f.fin = true ∧ read [] (a.joined f) ≠ some []
        · rw [if_pos hsome] at h
          cases h
        · rw [if_neg hsome] at h
          cases h
          refine ⟨rfl, Nat.le_of_not_lt hbig, fun h1 => ?_, rfl⟩
          cases hr : read [] (a.joined f) with
          | none => exact absurd ⟨h1, hr⟩ hnone
          | some t =>
            refine ⟨t, rfl, fun hfin => ?_⟩
            by_contra hne
            exact hsome ⟨h1, hfin, fun he => hne (Option.some.inj (hr ▸ he))⟩

/-- The reassembler goes on with a data message, or with none. -/
theorem after_ok (ha : a.Ok) (hacc : a.accepts cfg.server f = true)
    (htext : a.opcodeOf f = 1 → (read [] (a.joined f)).isSome) : (a.after f).Ok := by
  unfold after
  split_ifs with hctrl hfin
  · exact ha
  · trivial
  · refine ⟨?_, htext⟩
    unfold accepts at hacc
    simp only [Bool.and_eq_true] at hacc
    obtain ⟨-, hop⟩ := hacc
    cases a with
    | idle =>
      simp only [Bool.or_eq_true] at hop
      exact hop.resolve_right fun hc => hctrl (isKnownCtrl_ctrl hc)
    | inside opcode body =>
      simp only [opcodeOf, if_neg hctrl]
      exact ha.1

theorem report_ok (ha : a.Ok) {rx' : Rx} (h : (a.report q cfg f).fate = .live rx') :
    (a.after f).Ok := by
  obtain ⟨hacc, -, htext, -⟩ := report_live h
  refine after_ok ha hacc fun h1 => ?_
  obtain ⟨t, ht, -⟩ := htext h1
  rw [ht]
  rfl

/-- `P` holds of every frame that the receiver comes to. -/
def Meets (q : Bool) (cfg : RxConfig) (P : Assembly → Frame → Prop) : Assembly → List Frame → Prop
  | _, [] => True
  | a, f :: fs => P a f ∧
      ∀ rx', (a.report q cfg f).fate = .live rx' → (a.after f).Meets q cfg P fs

theorem Meets.mono {P P' : Assembly → Frame → Prop} (hP : ∀ a f, P a f → P' a f)
    {fs : List Frame} (h : a.Meets q cfg P fs) : a.Meets q cfg P' fs := by
  induction fs generalizing a with
  | nil => trivial
  | cons f fs ih => exact ⟨hP a f h.1, fun rx' hlive => ih (h.2 rx' hlive)⟩

/-- **The receiver, given whole frames, is the reassembler with its checks.** -/
theorem run_items (hdel : cfg.delivers = true) (ha : a.Ok) {fs : List Frame}
    (hv : ∀ f ∈ fs, f.header.Valid) (h8 : ∀ f ∈ fs, f.opcode ≠ 8)
    (hsmall : a.Meets q cfg (fun a f => a.accepts cfg.server f = true →
      a.lengthOf cfg f < 2 ^ 64) fs) :
    (a.rx cfg).run q cfg (fs.map Frame.item) = a.run q cfg fs := by
  induction fs generalizing a with
  | nil => rfl
  | cons f fs ih =>
    have hreact := react (q := q) hdel ha (hv f (List.mem_cons_self ..))
      (h8 f (List.mem_cons_self ..)) hsmall.1
    change ((a.rx cfg).react q cfg f.item).andThen (fun rx => rx.run q cfg (fs.map Frame.item)) =
      (a.report q cfg f).andThen fun _ => (a.after f).run q cfg fs
    rw [hreact]
    refine Report.andThen_congr fun rx' hlive => ?_
    obtain ⟨-, -, -, rfl⟩ := report_live hlive
    exact ih (report_ok ha hlive) (fun g hg => hv g (List.mem_cons_of_mem _ hg))
      (fun g hg => h8 g (List.mem_cons_of_mem _ hg)) (hsmall.2 _ hlive)

/-! ## Cuts inside the frames -/

/-- Only a Close is let in as a Close. -/
theorem admits_close (ha : a.Ok) {h : Header} {p : Progress} {rest : Option Draft}
    (hok : Rx.admits cfg (a.waiting cfg) h = .ok (p, rest)) (h8 : p.draft.opcode = 8) :
    h.opcode = 8 := by
  unfold Rx.admits at hok
  split_ifs at hok
  cases hb : belongs (a.waiting cfg) h.opcode with
  | none => simp [hb] at hok
  | some x =>
    obtain ⟨k, rest'⟩ := x
    simp only [hb] at hok
    split_ifs at hok
    cases hok
    have hk : k.opcode = 8 := by
      unfold Draft.extend at h8
      split_ifs at h8 <;> exact h8
    cases a with
    | idle =>
      have hb' : belongs none h.opcode = some (k, _) := hb
      rw [belongs] at hb'
      by_cases hknown : (isData h.opcode || isKnownCtrl h.opcode) = true
      · rw [if_pos hknown] at hb'
        cases hb'
        exact hk
      · rw [if_neg hknown] at hb'
        cases hb'
    | inside opcode body =>
      simp only [waiting, belongs] at hb
      split_ifs at hb
      · cases hb
        have hdata : isData (8 : Fin 16) = true := hk ▸ ha.1
        cases hdata
      · cases hb
        exact hk

/-- Who does not look at the chunks sees no cut, except in a Close. -/
theorem smooth_blind {α : Type} {g : Call → List α} (hblind : ∀ x, g (.frameRecvChunk x) = [])
    (ha : a.Ok) {h : Header} (h8 : h.opcode ≠ 8) (data : List UInt8) :
    (a.rx cfg).Smooth g cfg (.piece h data) := by
  intro calls p rest hok
  refine ⟨fun hclose => ?_, Or.inl hblind⟩
  unfold Rx.enter rx at hok
  cases hadm : Rx.admits cfg (a.waiting cfg) h with
  | error code => simp [hadm] at hok
  | ok x =>
    simp only [hadm] at hok
    cases hok
    exact absurd (admits_close ha hadm hclose) h8

/-- Nobody sees a cut in a frame whose text can be read. -/
theorem smooth_readable {α : Type} (g : Call → List α) (ha : a.Ok) (h8 : f.opcode ≠ 8)
    (hsmall : a.accepts cfg.server f = true → a.lengthOf cfg f < 2 ^ 64)
    (hread : a.accepts cfg.server f = true → a.opcodeOf f = 1 → (read [] (a.joined f)).isSome) :
    (a.rx cfg).Smooth g cfg f.item := by
  intro calls p rest hok
  unfold Rx.enter rx at hok
  cases hacc : a.accepts cfg.server f with
  | false => simp [admits_error ha hacc] at hok
  | true =>
    have hadm := admits_accepts ha hacc (hsmall hacc)
    by_cases hbig : cfg.limit < a.lengthOf cfg f
    · rw [if_pos hbig] at hadm
      simp [hadm] at hok
    · rw [if_neg hbig] at hadm
      simp only [hadm] at hok
      cases hok
      refine ⟨fun hclose => absurd (admits_close ha hadm hclose) h8, Or.inr ?_⟩
      have h8' : a.opcodeOf f ≠ 8 := fun h => h8 ((opcodeOf_eq_close ha).1 h)
      change (((draft cfg (a.opcodeOf f) (a.before f)).extend cfg f.header).scan 2 f.payload).isSome
      rw [scan_payload ha h8']
      by_cases h1 : a.opcodeOf f = 1
      · rw [if_pos h1]
        exact hread hacc h1
      · rw [if_neg h1]
        rfl

/-- What holds of the frames that the reassembler comes to holds of the items that
the receiver comes to. -/
theorem meets_items {P : Rx → Item → Prop} (hdel : cfg.delivers = true) (ha : a.Ok)
    {fs : List Frame} (hv : ∀ f ∈ fs, f.header.Valid) (h8 : ∀ f ∈ fs, f.opcode ≠ 8)
    (hP : a.Meets q cfg (fun a f => (a.accepts cfg.server f = true → a.lengthOf cfg f < 2 ^ 64) ∧
      (a.Ok → P (a.rx cfg) f.item)) fs) :
    (a.rx cfg).Meets q cfg P (fs.map Frame.item) := by
  induction fs generalizing a with
  | nil => trivial
  | cons f fs ih =>
    obtain ⟨⟨hsmall, hnow⟩, hrest⟩ := hP
    have hreact := react (q := q) hdel ha (hv f (List.mem_cons_self ..))
      (h8 f (List.mem_cons_self ..)) hsmall
    refine ⟨hnow ha, fun rx' hlive => ?_⟩
    rw [hreact] at hlive
    have hok := report_ok ha hlive
    obtain ⟨-, -, -, rfl⟩ := report_live hlive
    exact ih hok (fun g hg => hv g (List.mem_cons_of_mem _ hg))
      (fun g hg => h8 g (List.mem_cons_of_mem _ hg)) (hrest _ hlive)

end Assembly

/-- What is met first, and what is met afterwards. -/
theorem Rx.Meets.append {q : Bool} {cfg : RxConfig} {P : Rx → Item → Prop} {rx : Rx}
    {is is' : List Item} (h : rx.Meets q cfg P is)
    (h' : ∀ rx', (rx.run q cfg is).fate = .live rx' → rx'.Meets q cfg P is') :
    rx.Meets q cfg P (is ++ is') := by
  induction is generalizing rx with
  | nil => exact h' rx rfl
  | cons i is ih =>
    refine ⟨h.1, fun rx' hlive => ih (h.2 rx' hlive) fun rx'' hlive' => h' rx'' ?_⟩
    change ((rx.react q cfg i).andThen fun rx => rx.run q cfg is).fate = _
    rw [Report.andThen_live hlive]
    exact hlive'

end Wslay
