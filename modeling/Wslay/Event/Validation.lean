import Wslay.Event.Legal

/-!
# The validation of texts

Whatever frames a text comes in, and whatever comes between them, it is delivered
if and only if it is UTF-8.

* `Spells` — the frames of a message, Pings and Pongs between them.
* `Spells.legal`, `Spells.run_bad` — what the receiver makes of them.
* `text_delivered_iff` — **the texts that are delivered are those that are UTF-8**.
-/

namespace Wslay

open Utf8 (read WellFormed)

/-- The frames of a message, the first with the given opcode, with Pings and Pongs
between them; together they carry the octets `text`. -/
inductive Spells (server : Bool) : Fin 16 → List Frame → List UInt8 → Prop
  | last {opcode : Fin 16} {f : Frame} : f.rsv = 0 → f.key.isSome = server →
      f.opcode = opcode → f.fin = true → Spells server opcode [f] f.payload
  | part {opcode : Fin 16} {f : Frame} {fs : List Frame} {text : List UInt8} : f.rsv = 0 →
      f.key.isSome = server → f.opcode = opcode → f.fin = false → Spells server 0 fs text →
      Spells server opcode (f :: fs) (f.payload ++ text)
  | between {opcode : Fin 16} {f : Frame} {fs : List Frame} {text : List UInt8} : f.rsv = 0 →
      f.key.isSome = server → f.opcode = 9 ∨ f.opcode = 10 → f.fin = true →
      Spells server opcode fs text → Spells server opcode (f :: fs) text

/-- The call for a frame that is a message of its own. -/
def ctrlCall (f : Frame) : List Call :=
  if 8 ≤ f.opcode.val then [msgCall f.opcode f.payload] else []

/-- What a frame carries of a data message. -/
def dataOctets (f : Frame) : List UInt8 := if 8 ≤ f.opcode.val then [] else f.payload

/-- Of the calls only the deliveries are seen. -/
def Call.delivered (c : Call) : List Call := if c.isMsg then [c] else []

theorem flatMap_delivered (calls : List Call) :
    calls.flatMap Call.delivered = calls.filter Call.isMsg := by
  induction calls with
  | nil => rfl
  | cons c calls ih =>
    rw [List.flatMap_cons, List.filter_cons, ih, Call.delivered]
    split_ifs <;> rfl

theorem delivered_chunk (x : List UInt8) : (Call.frameRecvChunk x).delivered = [] := rfl

/-! ## The frames of a text -/

namespace Assembly

/-- The next frame of the text, of which `body` has come, is one with this opcode. -/
def Awaits (a : Assembly) (opcode : Fin 16) (body : List UInt8) : Prop :=
  a = .idle ∧ opcode = 1 ∧ body = [] ∨ a = .inside 1 body ∧ opcode = 0

section

variable {server : Bool} {a : Assembly} {opcode : Fin 16} {body : List UInt8} {f : Frame}

/-- A frame of the text. -/
theorem Awaits.frame (h : a.Awaits opcode body) (hrsv : f.rsv = 0) (hkey : f.key.isSome = server)
    (hop : f.opcode = opcode) :
    ¬ 8 ≤ f.opcode.val ∧ a.accepts server f = true ∧ a.opcodeOf f = 1 ∧
      a.joined f = body ++ f.payload := by
  rcases h with ⟨rfl, rfl, rfl⟩ | ⟨rfl, rfl⟩
  · have hlow : ¬ 8 ≤ f.opcode.val := by
      rw [hop]
      decide
    refine ⟨hlow, ?_, hop, rfl⟩
    simp [accepts, hrsv, hkey, hop, isData]
  · have hlow : ¬ 8 ≤ f.opcode.val := by
      rw [hop]
      decide
    refine ⟨hlow, ?_, ?_, ?_⟩
    · simp [accepts, hrsv, hkey, hop]
    · rw [opcodeOf, if_neg hlow]
    · rw [joined, before, if_neg hlow]

/-- A Ping or a Pong in the midst of it. -/
theorem Awaits.ctrl (h : a.Awaits opcode body) (hrsv : f.rsv = 0) (hkey : f.key.isSome = server)
    (hop : f.opcode = 9 ∨ f.opcode = 10) :
    8 ≤ f.opcode.val ∧ a.accepts server f = true ∧ a.opcodeOf f = f.opcode ∧
      a.joined f = f.payload ∧ a.after f = a := by
  have hctrl : 8 ≤ f.opcode.val := by
    rcases hop with hop | hop <;> rw [hop] <;> decide
  have hknown : isKnownCtrl f.opcode = true := by
    rcases hop with hop | hop <;> rw [hop] <;> rfl
  refine ⟨hctrl, ?_, ?_, joined_ctrl hctrl, if_pos hctrl⟩
  · rcases h with ⟨rfl, -⟩ | ⟨rfl, -⟩ <;> simp [accepts, hrsv, hkey, hknown]
  · rcases h with ⟨rfl, -⟩ | ⟨rfl, -⟩
    · rfl
    · rw [opcodeOf, if_pos hctrl]

/-- After a frame that is not the last, the text goes on. -/
theorem Awaits.after (h : a.Awaits opcode body) (hrsv : f.rsv = 0) (hkey : f.key.isSome = server)
    (hop : f.opcode = opcode) (hfin : f.fin = false) : (a.after f).Awaits 0 (body ++ f.payload) := by
  obtain ⟨hlow, -, h1, hjoin⟩ := h.frame hrsv hkey hop
  rw [Assembly.after, if_neg hlow, hfin, h1, hjoin]
  exact Or.inr ⟨rfl, rfl⟩

/-- A Ping or a Pong is legal in the midst of a text. -/
theorem Awaits.ctrl_legal (h : a.Awaits opcode body) (hrsv : f.rsv = 0)
    (hkey : f.key.isSome = server) (hop : f.opcode = 9 ∨ f.opcode = 10) : a.Legal server f := by
  obtain ⟨-, hacc, hown, -, -⟩ := h.ctrl hrsv hkey hop
  refine ⟨hacc, fun h1 => ?_⟩
  rw [hown] at h1
  rcases hop with hop | hop <;> rw [h1] at hop <;> cases hop

end

end Assembly

section

variable {cfg : RxConfig} {opcode : Fin 16} {fs : List Frame} {text body : List UInt8}
  {a : Assembly}

open Assembly (Legal Fits delivery kept)

/-- The delivery of a Ping or a Pong. -/
theorem delivery_ctrl {f : Frame} (hctrl : 8 ≤ f.opcode.val) (hown : a.opcodeOf f = f.opcode)
    (hjoin : a.joined f = f.payload) (hfin : f.fin = true) : a.delivery cfg f = ctrlCall f := by
  rw [delivery, Assembly.message, if_pos hfin, hown, hjoin, ctrlCall, if_pos hctrl]
  simp [Assembly.kept_ctrl hctrl]

/-- **The frames of a text that is UTF-8 are legal, and the text is delivered.** -/
theorem Spells.legal (hs : Spells cfg.server opcode fs text) (ha : a.Awaits opcode body)
    (hwf : WellFormed (body ++ text)) :
    a.All (Legal cfg.server) fs ∧ a.afterAll fs = .idle ∧
      a.along (delivery cfg) fs =
        fs.flatMap ctrlCall ++ [msgCall 1 (kept cfg 1 (body ++ text))] := by
  induction hs generalizing a body with
  | @last opcode f hrsv hkey hop hfin =>
    obtain ⟨hlow, hacc, h1, hjoin⟩ := ha.frame hrsv hkey hop
    refine ⟨⟨⟨hacc, fun _ => ?_⟩, trivial⟩, ?_, ?_⟩
    · rw [if_pos hfin, hjoin]
      exact hwf
    · change a.after f = .idle
      rw [Assembly.after, if_neg hlow, if_pos hfin]
    · change a.delivery cfg f ++ [] = ctrlCall f ++ [] ++ _
      rw [delivery, Assembly.message, if_pos hfin, h1, hjoin, ctrlCall, if_neg hlow]
      rfl
  | @part opcode f fs text hrsv hkey hop hfin _ ih =>
    obtain ⟨hlow, hacc, h1, hjoin⟩ := ha.frame hrsv hkey hop
    rw [← List.append_assoc] at hwf
    obtain ⟨hall, hidle, halong⟩ := ih (ha.after hrsv hkey hop hfin) hwf
    refine ⟨⟨⟨hacc, fun _ => ?_⟩, hall⟩, hidle, ?_⟩
    · rw [if_neg (by simp [hfin]), hjoin]
      exact ⟨text, hwf⟩
    · change a.delivery cfg f ++ (a.after f).along (delivery cfg) fs = _
      rw [halong, delivery, Assembly.message, hfin, List.flatMap_cons, ctrlCall, if_neg hlow,
        List.append_assoc]
      rfl
  | @between opcode f fs text hrsv hkey hop hfin _ ih =>
    obtain ⟨hctrl, hacc, hown, hjoin, hafter⟩ := ha.ctrl hrsv hkey hop
    have ha' : (a.after f).Awaits opcode body := by
      rw [hafter]
      exact ha
    obtain ⟨hall, hidle, halong⟩ := ih ha' hwf
    refine ⟨⟨ha.ctrl_legal hrsv hkey hop, hall⟩, hidle, ?_⟩
    change a.delivery cfg f ++ (a.after f).along (delivery cfg) fs = _
    rw [halong, delivery_ctrl hctrl hown hjoin hfin, List.flatMap_cons, List.append_assoc]

/-- **A text that is not UTF-8 is rejected**, with a Close and no delivery. -/
theorem Spells.run_bad (hs : Spells cfg.server opcode fs text) (ha : a.Awaits opcode body)
    (hbad : ¬ WellFormed (body ++ text)) (hfits : a.All (Fits cfg) fs) :
    ∃ pongs, pongs <+: fs.flatMap Assembly.pongOf ∧
      (a.run true cfg fs).replies = pongs ++ [.close codeInvalidFramePayloadData []] ∧
      (a.run true cfg fs).fate = .off none 0 ∧
      (a.run true cfg fs).calls.filter Call.isMsg <+: fs.flatMap ctrlCall := by
  induction hs generalizing a body with
  | @last opcode f hrsv hkey hop hfin =>
    obtain ⟨hlow, hacc, h1, hjoin⟩ := ha.frame hrsv hkey hop
    have hlen : ¬ cfg.limit < a.lengthOf cfg f := Nat.not_lt.2 hfits.1
    have hne : read [] (a.joined f) ≠ some [] := by
      rw [hjoin]
      exact fun h => hbad ((Utf8.wellFormed_iff _).2 h)
    have hrun : ∃ calls, a.report true cfg f =
        Assembly.giveUp true calls codeInvalidFramePayloadData ∧ calls.filter Call.isMsg = [] := by
      by_cases hnone : a.opcodeOf f = 1 ∧ read [] (a.joined f) = none
      · refine ⟨[f.header.startCall], ?_, rfl⟩
        rw [Assembly.report, hacc, if_neg (by simp), if_neg hlen, if_pos hnone]
      · refine ⟨[f.header.startCall, .frameRecvChunk f.payload], ?_, rfl⟩
        rw [Assembly.report, hacc, if_neg (by simp), if_neg hlen, if_neg hnone,
          if_pos ⟨h1, hfin, hne⟩]
    obtain ⟨calls, hrep, hcalls⟩ := hrun
    have hall : a.run true cfg [f] = Assembly.giveUp true calls codeInvalidFramePayloadData := by
      rw [Assembly.run, hrep, Report.andThen_off rfl]
    rw [hall]
    refine ⟨[], List.nil_prefix, rfl, rfl, ?_⟩
    change calls.filter Call.isMsg <+: _
    rw [hcalls]
    exact List.nil_prefix
  | @part opcode f fs text hrsv hkey hop hfin _ ih =>
    obtain ⟨hlow, hacc, h1, hjoin⟩ := ha.frame hrsv hkey hop
    have hlen : ¬ cfg.limit < a.lengthOf cfg f := Nat.not_lt.2 hfits.1
    by_cases hnone : read [] (a.joined f) = none
    · have hrep : a.report true cfg f =
          Assembly.giveUp true [f.header.startCall] codeInvalidFramePayloadData := by
        rw [Assembly.report, hacc, if_neg (by simp), if_neg hlen, if_pos ⟨h1, hnone⟩]
      rw [Assembly.run, hrep, Report.andThen_off rfl]
      exact ⟨[], List.nil_prefix, rfl, rfl, List.nil_prefix⟩
    · rw [← List.append_assoc] at hbad
      obtain ⟨pongs, hpongs, hreplies, hfate, hcalls⟩ :=
        ih (ha.after hrsv hkey hop hfin) hbad hfits.2
      have hlegal : a.Legal cfg.server f := by
        refine ⟨hacc, fun _ => ?_⟩
        rw [if_neg (by simp [hfin])]
        exact (Utf8.read_isSome_iff _).1 (Option.ne_none_iff_isSome.1 hnone)
      have h9 : f.opcode ≠ 9 := fun h9 => hlow (by rw [h9]; decide)
      have hpong : Assembly.pongOf f = [] := if_neg h9
      rw [Assembly.run, Assembly.report_legal hlegal hfits.1, Report.andThen_live rfl]
      refine ⟨pongs, ?_, ?_, hfate, ?_⟩
      · rw [List.flatMap_cons, hpong]
        exact hpongs
      · simp only [h9, false_and, if_false]
        exact hreplies
      · have hno : a.delivery cfg f = [] := by
          rw [delivery, Assembly.message, hfin]
          rfl
        rw [List.flatMap_cons, ctrlCall, if_neg hlow, List.nil_append, List.filter_append,
          Assembly.callsFor, hno]
        exact hcalls
  | @between opcode f fs text hrsv hkey hop hfin _ ih =>
    obtain ⟨hctrl, hacc, hown, hjoin, hafter⟩ := ha.ctrl hrsv hkey hop
    have ha' : (a.after f).Awaits opcode body := by
      rw [hafter]
      exact ha
    obtain ⟨pongs, hpongs, hreplies, hfate, hcalls⟩ := ih ha' hbad hfits.2
    rw [Assembly.run, Assembly.report_legal (ha.ctrl_legal hrsv hkey hop) hfits.1,
      Report.andThen_live rfl]
    refine ⟨Assembly.pongOf f ++ pongs, ?_, ?_, hfate, ?_⟩
    · rw [List.flatMap_cons]
      exact (List.prefix_append_right_inj _).2 hpongs
    · simp only [and_true]
      rw [hreplies, List.append_assoc]
      rfl
    · rw [List.flatMap_cons, List.filter_append, Assembly.callsFor,
        delivery_ctrl hctrl hown hjoin hfin, ctrlCall, if_pos hctrl]
      exact (List.prefix_append_right_inj [msgCall f.opcode f.payload]).2 hcalls

/-- Where the text stands before one of its frames. -/
theorem Spells.awaits {server : Bool} {pre post : List Frame} {f : Frame}
    (hs : Spells server opcode (pre ++ f :: post) text) (ha : a.Awaits opcode body)
    (hdata : ¬ 8 ≤ f.opcode.val) :
    f.rsv = 0 ∧ f.key.isSome = server ∧
      (a.afterAll pre).Awaits f.opcode (body ++ pre.flatMap dataOctets) := by
  induction pre generalizing a body opcode text with
  | nil =>
    rw [List.nil_append] at hs
    change _ ∧ _ ∧ a.Awaits f.opcode (body ++ [])
    rw [List.append_nil]
    cases hs with
    | last hrsv hkey hop hfin => exact ⟨hrsv, hkey, hop ▸ ha⟩
    | part hrsv hkey hop hfin _ => exact ⟨hrsv, hkey, hop ▸ ha⟩
    | between hrsv hkey hop _ _ =>
      refine absurd ?_ hdata
      rcases hop with hop | hop <;> rw [hop] <;> decide
  | cons g pre ih =>
    change _ ∧ _ ∧ ((a.after g).afterAll pre).Awaits f.opcode
      (body ++ (dataOctets g ++ pre.flatMap dataOctets))
    rw [List.cons_append] at hs
    rw [← List.append_assoc]
    generalize htail : pre ++ f :: post = tail at hs
    cases hs with
    | last hrsv hkey hop hfin => exact absurd htail (by simp)
    | part hrsv hkey hop hfin hrest =>
      rw [← htail] at hrest
      have hlow := (ha.frame hrsv hkey hop).1
      rw [dataOctets, if_neg hlow]
      exact ih hrest (ha.after hrsv hkey hop hfin)
    | between hrsv hkey hop hfin hrest =>
      rw [← htail] at hrest
      obtain ⟨hctrl, -, -, -, hafter⟩ := ha.ctrl hrsv hkey hop
      rw [dataOctets, if_pos hctrl, List.append_nil]
      refine ih hrest ?_
      rw [hafter]
      exact ha

/-- A piece of a text that cannot be read any more is rejected. -/
theorem react_unreadable {f : Frame} {data : List UInt8} (ha : a.Ok)
    (hacc : a.accepts cfg.server f = true) (hfits : a.Fits cfg f) (hlimit : cfg.limit < 2 ^ 64)
    (h1 : a.opcodeOf f = 1) (hbad : read [] (a.before f ++ data) = none) :
    ((a.rx cfg).react true cfg (.piece f.header data)).fate = .off none 0 := by
  have hadm := Assembly.admits_accepts ha hacc (lt_of_le_of_lt hfits hlimit)
  rw [if_neg (Nat.not_lt.2 hfits)] at hadm
  have hok : (a.rx cfg).enter cfg f.header = .ok ([f.header.startCall], ⟨f.header, 0,
      (Assembly.draft cfg (a.opcodeOf f) (a.before f)).extend cfg f.header⟩,
      if 8 ≤ f.opcode.val then a.waiting cfg else none) := by
    unfold Rx.enter Assembly.rx
    simp only [hadm]
  rw [Rx.react, Rx.piece_ok hok, Progress.piece, Assembly.scan_text ha h1, hbad]
  rfl

/-- A message that is not a Close has no Close among its frames. -/
theorem Spells.ne_close {server : Bool} (hs : Spells server opcode fs text) (h8 : opcode ≠ 8) :
    ∀ f ∈ fs, f.opcode ≠ 8 := by
  induction hs with
  | last _ _ hop _ =>
    intro f hf
    rw [List.mem_singleton] at hf
    rw [hf, hop]
    exact h8
  | part _ _ hop _ _ ih =>
    intro f hf
    rcases List.mem_cons.1 hf with rfl | hf
    · rw [hop]
      exact h8
    · exact ih (by decide) f hf
  | between _ _ hop _ _ ih =>
    intro f hf
    rcases List.mem_cons.1 hf with rfl | hf
    · rcases hop with hop | hop <;> rw [hop] <;> decide
    · exact ih h8 f hf

end

/-! ## Runs of `wslay_event_recv` -/

section

variable {server : Bool} {callbacks : EventCallbacks} {noBuffering : Bool} {limit : Nat}
  {hist fs : List Frame} {text rest : List UInt8} {io : Io}

/-- What has been delivered is among the calls of the report. -/
theorem Stands.delivered {R : Report} {s : EventContext × Io} (h : Stands callbacks R s)
    (hset : callbacks.onMsgRecv = true) :
    s.2.calls.filter Call.isMsg = R.calls.filter Call.isMsg := by
  rw [h.calls, List.filter_filter]
  refine List.filter_congr fun c _ => ?_
  cases c <;> simp [Call.isMsg, EventCallbacks.takes, hset]

/-- The front of a stream, up to the octet that spoils the text, ends the receiver. -/
theorem Spells.stops {cfg : RxConfig} (hs : Spells cfg.server 1 fs text)
    (hdel : cfg.delivers = true) (hlimit : cfg.limit < 2 ^ 64)
    (hvalid : ∀ f ∈ hist ++ fs, f.header.Valid) (hclose : ∀ f ∈ hist, f.opcode ≠ 8)
    (hdone : Assembly.idle.afterAll hist = .idle)
    (hfits : Assembly.idle.All (Assembly.Fits cfg) (hist ++ fs))
    {pre post : List Frame} {f : Frame} (hfs : fs = pre ++ f :: post)
    (hdata : ¬ 8 ≤ f.opcode.val) {x y : List UInt8} (hx : x ≠ []) (hxy : f.payload = x ++ y)
    (hbad : ¬ ∃ t, WellFormed (pre.flatMap dataOctets ++ x ++ t)) (tl : List UInt8) :
    let items := streamItems ((hist ++ pre).flatMap Frame.encode ++
      (f.header.encode ++ (f.header.mask 0 x ++ tl)))
    Rx.fresh.Meets true cfg (Rx.Smooth Call.delivered cfg) items ∧
      ∀ rx, (Rx.fresh.run true cfg items).fate ≠ .live rx := by
  intro items
  have hpre : ∀ g ∈ hist ++ pre, g ∈ hist ++ fs := by
    intro g hg
    rw [hfs, ← List.append_assoc]
    exact List.mem_append_left _ hg
  have hmem : f ∈ hist ++ fs := by
    rw [hfs]
    simp
  have hpreclose : ∀ g ∈ hist ++ pre, g.opcode ≠ 8 := by
    intro g hg
    rcases List.mem_append.1 (hpre g hg) with hg | hg
    · exact hclose g hg
    · exact hs.ne_close (by decide) g hg
  -- where the reassembler stands before the frame
  rw [hfs, ← List.append_assoc, Assembly.all_append] at hfits
  obtain ⟨hfitspre, hfitsf, -⟩ := hfits
  obtain ⟨hrsv, hkey, hawaits⟩ := (hfs ▸ hs).awaits (Or.inl ⟨rfl, rfl, rfl⟩) hdata
  obtain ⟨a, ha⟩ : ∃ a, Assembly.idle.afterAll (hist ++ pre) = a := ⟨_, rfl⟩
  have haw : a.Awaits f.opcode (pre.flatMap dataOctets) := by
    rw [← ha, Assembly.afterAll_append, hdone]
    exact hawaits
  rw [ha] at hfitsf
  obtain ⟨hlow, hacc, h1, hjoin⟩ := haw.frame hrsv hkey rfl
  rw [Assembly.joined, List.append_cancel_right_eq] at hjoin
  have hnone : ∀ z, read [] (a.before f ++ (x ++ z)) = none := by
    intro z
    have h : read [] (pre.flatMap dataOctets ++ x) = none := by
      rw [← Option.not_isSome_iff_eq_none, Utf8.read_isSome_iff]
      exact hbad
    rw [hjoin, ← List.append_assoc, Utf8.read_append, h]
    rfl
  -- the piece with the octet comes after the frames before it
  obtain ⟨z, more, hpiece⟩ : ∃ z more, payloadItems f.header 0 (f.header.mask 0 x ++ tl) =
      .piece f.header (x ++ z) :: more := by
    have hle : 0 + (f.header.mask 0 x).length ≤ f.header.length := by
      rw [Header.length_mask, Frame.header_length, hxy, List.length_append]
      omega
    obtain ⟨z, more, heq⟩ := payloadItems_front (mt (Header.mask_eq_nil_iff _ _ _).1 hx) hle tl
    rw [Header.mask_mask] at heq
    exact ⟨z, more, heq⟩
  have hitems : items = (hist ++ pre).map Frame.item ++ .piece f.header (x ++ z) :: more := by
    change streamItems _ = _
    rw [streamItems_flatMap fun g hg => hvalid g (hpre g hg), streamItems_header (hvalid f hmem),
      hpiece]
  obtain ⟨hmeets, hrun⟩ : Rx.fresh.Meets true cfg (Rx.Smooth Call.delivered cfg)
        ((hist ++ pre).map Frame.item) ∧
      Rx.fresh.run true cfg ((hist ++ pre).map Frame.item) =
        Assembly.idle.run true cfg (hist ++ pre) :=
    hfitspre.front delivered_chunk hdel Assembly.ok_idle (fun g hg => hvalid g (hpre g hg))
      hpreclose hlimit
  have hstop : ∀ rx, (Rx.fresh.run true cfg ((hist ++ pre).map Frame.item)).fate = .live rx →
      rx = a.rx cfg ∧ a.Ok ∧ (rx.react true cfg (.piece f.header (x ++ z))).fate = .off none 0 := by
    intro rx hlive
    rw [hrun] at hlive
    obtain ⟨rfl, hok⟩ := Assembly.run_live hlive
    rw [ha] at hok ⊢
    have hok := hok Assembly.ok_idle
    exact ⟨rfl, hok, react_unreadable hok hacc hfitsf hlimit h1 (hnone z)⟩
  rw [hitems]
  refine ⟨hmeets.append fun rx hlive => ?_, fun rx hlive => ?_⟩
  · obtain ⟨rfl, hok, hoff⟩ := hstop rx hlive
    refine ⟨Assembly.smooth_blind delivered_chunk hok ?_ _, fun rx' hlive' => ?_⟩
    · intro h8
      refine hlow ?_
      rw [show f.opcode = 8 from h8]
      decide
    · rw [hoff] at hlive'
      cases hlive'
  · rw [Rx.run_append] at hlive
    cases hfirst : (Rx.fresh.run true cfg ((hist ++ pre).map Frame.item)).fate with
    | off heard r =>
      rw [Report.andThen_off hfirst, hfirst] at hlive
      cases hlive
    | live rx₁ =>
      rw [Report.andThen_live hfirst] at hlive
      obtain ⟨-, -, hoff⟩ := hstop rx₁ hfirst
      change ((rx₁.react true cfg (.piece f.header (x ++ z))).andThen
        fun rx => rx.run true cfg more).fate = _ at hlive
      rw [Report.andThen_off hoff, hoff] at hlive
      cases hlive

/-- **A context that has taken the octet that spoils the text out of the buffer does
not read on.** -/
theorem Spells.stops_run (hs : Spells server 1 fs text) (hset : callbacks.onMsgRecv = true)
    (hlimit : limit < 2 ^ 64) (hvalid : ∀ f ∈ hist ++ fs, f.header.Valid)
    (hclose : ∀ f ∈ hist, f.opcode ≠ 8) (hdone : Assembly.idle.afterAll hist = .idle)
    (hfits : Assembly.idle.All (Assembly.Fits (.of server callbacks noBuffering limit)) (hist ++ fs))
    (hcalm : io.Calm) (hstream : pendingOctets io.recvs = (hist ++ fs).flatMap Frame.encode ++ rest)
    {pre post : List Frame} {f : Frame} (hfs : fs = pre ++ f :: post)
    (hdata : ¬ 8 ≤ f.opcode.val) {x y : List UInt8} (hx : x ≠ []) (hxy : f.payload = x ++ y)
    (hbad : ¬ ∃ t, WellFormed (pre.flatMap dataOctets ++ x ++ t)) {n : Nat} {t : EventContext × Io}
    (ht : Loop.Reaches recvPass
      (recvRun (configured server callbacks noBuffering limit, io) n) t)
    (hpast : ((hist ++ pre).flatMap Frame.encode ++ f.header.encode ++ x).length +
      t.1.frameCtx.avail.length ≤ t.2.received.length) : t.1.readEnabled = false := by
  have hruns := configured_runs server callbacks noBuffering limit hcalm
  obtain ⟨new, items, d', look', htr⟩ := recvRun_reaches hruns n ht
  rw [htr.follows.enabled]
  cases hfate : (Rx.fresh.run true (.of server callbacks noBuffering limit) items).fate with
  | off heard r => rfl
  | live rx' =>
    exfalso
    obtain ⟨taken, hnew, halike⟩ :=
      htr.taken (g := Call.delivered) (fun _ _ => rfl) hruns.listens.place hfate
    -- the octets taken out of the buffer begin with those up to the one in question
    have hfront : (hist ++ pre).flatMap Frame.encode ++ (f.header.encode ++ f.header.mask 0 x) <+:
        new ++ pendingOctets t.2.recvs := by
      have hpend := htr.pending
      change pendingOctets io.recvs = _ at hpend
      have hencode : (hist ++ fs).flatMap Frame.encode = (hist ++ pre).flatMap Frame.encode ++
          (f.header.encode ++ (f.header.mask 0 f.payload ++ post.flatMap Frame.encode)) := by
        rw [hfs, ← List.append_assoc, List.flatMap_append, List.flatMap_cons, Frame.encode,
          List.append_assoc f.header.encode]
      rw [← hpend, hstream, hencode, hxy, Header.mask_append]
      refine ⟨f.header.mask (0 + x.length) y ++ (post.flatMap Frame.encode ++ rest), ?_⟩
      simp only [List.append_assoc]
    have htook : taken <+: new ++ pendingOctets t.2.recvs := by
      rw [hnew, List.append_assoc]
      exact List.prefix_append _ _
    obtain ⟨tl, rfl⟩ : (hist ++ pre).flatMap Frame.encode ++
        (f.header.encode ++ f.header.mask 0 x) <+: taken := by
      refine List.prefix_of_prefix_length_le hfront htook ?_
      have hreceived := htr.received
      change t.2.received = io.received ++ new at hreceived
      rw [hreceived, hcalm.received, hnew] at hpast
      simp only [List.length_append, List.length_nil, Header.length_mask] at hpast ⊢
      omega
    have hs' : Spells (RxConfig.of server callbacks noBuffering limit).server 1 fs text := hs
    obtain ⟨hmeets, hoff⟩ :=
      hs'.stops hset hlimit hvalid hclose hdone hfits hfs hdata hx hxy hbad tl
    rw [List.append_assoc, List.append_assoc] at halike
    exact hoff rx' ((halike hmeets).fate.trans hfate)

/-- What the frames of earlier messages and of a text come to, on the whole. -/
theorem Spells.run {cfg : RxConfig} (hs : Spells cfg.server 1 fs text)
    (hhist : Assembly.idle.All (Assembly.Legal cfg.server) hist)
    (hdone : Assembly.idle.afterAll hist = .idle)
    (hfits : Assembly.idle.All (Assembly.Fits cfg) (hist ++ fs)) :
    let earlier := Assembly.idle.along (Assembly.delivery cfg) hist ++ fs.flatMap ctrlCall
    let R := Assembly.idle.run true cfg (hist ++ fs)
    (WellFormed text → R.calls.filter Call.isMsg =
      earlier ++ [msgCall 1 (Assembly.kept cfg 1 text)]) ∧
    (¬ WellFormed text → R.calls.filter Call.isMsg <+: earlier ∧ R.fate = .off none 0 ∧
      ∃ pongs : List Reply, (∀ r ∈ pongs, ∃ msg, r = .pong msg) ∧
        R.replies = pongs ++ [Reply.close codeInvalidFramePayloadData []]) := by
  intro earlier R
  have hawaits : Assembly.idle.Awaits 1 [] := Or.inl ⟨rfl, rfl, rfl⟩
  rw [Assembly.all_append, hdone] at hfits
  obtain ⟨hfitsh, hfitsf⟩ := hfits
  have hR : R = (Assembly.idle.run true cfg hist).andThen fun _ =>
      Assembly.idle.run true cfg fs := by
    change Assembly.idle.run true cfg (hist ++ fs) = _
    rw [Assembly.run_append, hdone]
  rw [Assembly.run_legal hhist hfitsh, Report.andThen_live rfl] at hR
  have hcalls : R.calls.filter Call.isMsg = Assembly.idle.along (Assembly.delivery cfg) hist ++
      (Assembly.idle.run true cfg fs).calls.filter Call.isMsg := by
    rw [hR, List.filter_append, Assembly.filter_along_callsFor]
  rw [hcalls]
  refine ⟨fun hwf => ?_, fun hbad => ?_⟩
  · obtain ⟨hlegal, -, halong⟩ := hs.legal hawaits hwf
    rw [Assembly.run_legal hlegal hfitsf, Assembly.filter_along_callsFor, halong,
      ← List.append_assoc]
    rfl
  · obtain ⟨pongs, hpongs, hreplies, hfate, hmsgs⟩ := hs.run_bad hawaits hbad hfitsf
    refine ⟨(List.prefix_append_right_inj _).2 hmsgs, ?_,
      Assembly.idle.along (fun _ => Assembly.pongOf) hist ++ pongs, ?_, ?_⟩
    · rw [hR]
      exact hfate
    · intro r hr
      rcases List.mem_append.1 hr with hr | hr
      · rw [Assembly.along_const] at hr
        exact Assembly.mem_pongOf hr
      · exact Assembly.mem_pongOf (hpongs.subset hr)
    · rw [hR]
      change _ ++ (Assembly.idle.run true cfg fs).replies = _
      rw [hreplies, List.append_assoc]

/-- **Exactly the texts that are UTF-8 are delivered.**  A text of any number of
frames, with Pings and Pongs between them and after complete messages, is delivered
if and only if it is UTF-8.  If it is not, it is never delivered, and a Close with the
code 1007 is queued and reading is over; and once the context has taken octets out of
the buffer with which no text that is UTF-8 begins, it does not read on. -/
theorem text_delivered_iff (server : Bool) (callbacks : EventCallbacks)
    (hset : callbacks.onMsgRecv = true) (noBuffering : Bool) (limit : Nat) (hlimit : limit < 2 ^ 64)
    (hist fs : List Frame) (text rest : List UInt8) (hvalid : ∀ f ∈ hist ++ fs, f.header.Valid)
    (hclose : ∀ f ∈ hist, f.opcode ≠ 8)
    (hhist : Assembly.idle.All (Assembly.Legal server) hist)
    (hdone : Assembly.idle.afterAll hist = .idle) (hspells : Spells server 1 fs text)
    (hfits : Assembly.idle.All (Assembly.Fits (.of server callbacks noBuffering limit)) (hist ++ fs))
    (io : Io) (hcalm : io.Calm)
    (hstream : pendingOctets io.recvs = (hist ++ fs).flatMap Frame.encode ++ rest) (n : Nat) :
    let cfg := RxConfig.of server callbacks noBuffering limit
    let s := recvRun (configured server callbacks noBuffering limit, io) n
    let earlier := Assembly.idle.along (Assembly.delivery cfg) hist ++ fs.flatMap ctrlCall
    (io.recvs.length < n →
      (earlier ++ [msgCall 1 (Assembly.kept cfg 1 text)] <+: s.2.calls.filter Call.isMsg ↔
        WellFormed text)) ∧
    (¬ WellFormed text → s.2.calls.filter Call.isMsg <+: earlier ∧
      (io.recvs.length < n → s.1.readEnabled = false ∧
        ∃ pongs : List Reply, (∀ r ∈ pongs, ∃ msg, r = .pong msg) ∧
          s.2.queued = (pongs ++ [Reply.close codeInvalidFramePayloadData []]).map Reply.queued)) ∧
    (∀ pre f post x y, fs = pre ++ f :: post → ¬ 8 ≤ f.opcode.val → x ≠ [] → f.payload = x ++ y →
      (¬ ∃ t, WellFormed (pre.flatMap dataOctets ++ x ++ t)) →
      ∀ t, Loop.Reaches recvPass s t →
        ((hist ++ pre).flatMap Frame.encode ++ f.header.encode ++ x).length +
          t.1.frameCtx.avail.length ≤ t.2.received.length → t.1.readEnabled = false) := by
  intro cfg s earlier
  have hruns := configured_runs server callbacks noBuffering limit hcalm
  have hs : Spells cfg.server 1 fs text := hspells
  have hclose' : ∀ f ∈ hist ++ fs, f.opcode ≠ 8 := by
    intro f hf
    rcases List.mem_append.1 hf with hf | hf
    · exact hclose f hf
    · exact hspells.ne_close (by decide) f hf
  obtain ⟨hmeets, hrun⟩ : Rx.fresh.Meets true cfg (Rx.Smooth Call.delivered cfg)
        ((hist ++ fs).map Frame.item) ∧
      Rx.fresh.run true cfg ((hist ++ fs).map Frame.item) =
        Assembly.idle.run true cfg (hist ++ fs) :=
    hfits.front delivered_chunk hset Assembly.ok_idle hvalid hclose' hlimit
  obtain ⟨hgood, hbad⟩ := hs.run hhist hdone hfits
  rw [← hrun] at hgood hbad
  obtain ⟨W, hW⟩ : ∃ W, Rx.fresh.run true cfg ((hist ++ fs).map Frame.item) = W := ⟨_, rfl⟩
  rw [hW] at hgood hbad
  -- a text that is not UTF-8 is not delivered
  have hnever : ¬ WellFormed text → s.2.calls.filter Call.isMsg <+: earlier := by
    intro hwf
    obtain ⟨hmsgs, hoff, -⟩ := hbad hwf
    refine List.IsPrefix.trans ?_ hmsgs
    obtain ⟨new, items, d', look', ht⟩ := recvRun_trace hruns n
    rw [(ht.follows.stands hcalm).delivered hset, ← flatMap_delivered, ← flatMap_delivered]
    rcases ht.front (fun _ _ => rfl) hruns.listens.place hvalid hmeets
      (ht.pending.symm.trans hstream) with ⟨a', -, -, halike⟩ | ⟨is, is', rfl, -, halike⟩
    · rw [hW] at halike
      rw [halike.calls]
      exact (Report.prefix_andThen _ _).1.flatMap _
    · rw [hW] at halike
      rw [Rx.run_append, Report.andThen_off (halike.fate.symm.trans hoff), halike.calls]
  refine ⟨fun hn => ?_, fun hwf => ⟨hnever hwf, fun hn => ?_⟩, ?_⟩
  · constructor
    · intro hpre
      by_contra hwf
      have hle := (hpre.trans (hnever hwf)).length_le
      rw [List.length_append, List.length_singleton] at hle
      omega
    · intro hwf
      obtain ⟨new, is, is', d', look', more, ht, halike, -, -⟩ :=
        recvRun_front hruns hn (fun _ _ => rfl) hvalid hmeets hstream
      rw [hW] at halike
      rw [(ht.follows.stands hcalm).delivered hset, ← hgood hwf, ← flatMap_delivered,
        ← flatMap_delivered, halike.calls, Rx.run_append]
      exact (Report.prefix_andThen _ _).1.flatMap _
  · obtain ⟨-, hoff, pongs, hpongs, hreplies⟩ := hbad hwf
    obtain ⟨new, is, is', d', look', more, ht, halike, -, -⟩ :=
      recvRun_front hruns hn (fun _ _ => rfl) hvalid hmeets hstream
    rw [hW] at halike
    have hst := ht.follows.stands hcalm
    rw [Rx.run_append, Report.andThen_off (halike.fate.symm.trans hoff)] at hst
    refine ⟨?_, pongs, hpongs, ?_⟩
    · rw [hst.enabled, ← halike.fate, hoff]
      rfl
    · rw [hst.queued, ← halike.replies, hreplies]
  · intro pre f post x y hfs hdata hx hxy hnot t ht hpast
    exact hspells.stops_run hset hlimit hvalid hclose hdone hfits hcalm hstream hfs hdata hx hxy
      hnot ht hpast

/-- A text of one frame. -/
def earlierText : List Frame := [⟨true, 0, 1, none, [0x42]⟩]

/-- A text that is cut inside a character, with a Ping at the cut. -/
def cutText : List Frame :=
  [⟨false, 0, 1, none, [0x41, 0xc3]⟩, ⟨true, 0, 9, none, [0x70]⟩, ⟨true, 0, 0, none, [0xa9]⟩]

theorem text_delivered_iff_cutText :
    let s := recvRun (configured false ⟨true, true, true, true⟩ false 1000,
      { recvs := [.data ((earlierText ++ cutText).flatMap Frame.encode ++ [])] }) 2
    [msgCall 1 [0x42], msgCall 9 [0x70], msgCall 1 [0x41, 0xc3, 0xa9]] <+:
      s.2.calls.filter Call.isMsg := by
  have hvalid : ∀ f ∈ earlierText ++ cutText, f.header.Valid := by decide
  have hhist : Assembly.idle.All (Assembly.Legal false) earlierText := by
    refine ⟨⟨rfl, fun _ => ?_⟩, trivial⟩
    rw [if_pos rfl]
    decide
  have hspells : Spells false 1 cutText [0x41, 0xc3, 0xa9] := by
    have hlast : Spells false 0 [⟨true, 0, 0, none, [0xa9]⟩] [0xa9] := .last rfl rfl rfl rfl
    exact .part rfl rfl rfl rfl (.between rfl rfl (Or.inl rfl) rfl hlast)
  have hfits : Assembly.idle.All
      (Assembly.Fits (.of false ⟨true, true, true, true⟩ false 1000))
      (earlierText ++ cutText) := by
    unfold Assembly.Fits
    exact ⟨by decide, by decide, by decide, by decide, trivial⟩
  have hcalm : Io.Calm { recvs := [.data
      ((earlierText ++ cutText).flatMap Frame.encode ++ [])] } :=
    ⟨rfl, fun h => (by cases h), ⟨Or.inl rfl, fun e he => (by simp at he)⟩, rfl, rfl, rfl⟩
  exact ((text_delivered_iff false ⟨true, true, true, true⟩ rfl false 1000 (by decide)
    earlierText cutText [0x41, 0xc3, 0xa9] [] hvalid (by decide) hhist rfl hspells
    hfits _ hcalm (List.append_nil _) 2).1 (by decide)).2 (by decide)

end

end Wslay
