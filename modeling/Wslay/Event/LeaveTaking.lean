import Wslay.Event.CloseBodies
import Wslay.Event.Recut
import Wslay.Event.Messages
import Wslay.Event.Attending

/-!
# A front of frames with a Close behind them

The frames that a peer sends may end with a Close.  While the octets received so far are
the first of theirs the receiver goes on, and it stops with the last octet of the Close.

* `GoodBody`, `GoodClose` — a Close that is accepted however it is cut.
* `LeaveTaking` — the frames that a peer may send.
* `Reads.of_leaving` — **what comes of the first octets of such frames**.
* `LeaveTaking.stops` — the Close does stop the receiver.
-/

namespace Wslay

/-! ## A Close that is accepted -/

/-- A body that is accepted however it is cut. -/
structure GoodBody (limit : Nat) (body : List UInt8) : Prop where
  allowed : AllowedBody body
  ascii : ∀ b ∈ body.drop 2, b ≤ 0x7f
  fits : body.length ≤ limit

/-- A Close that is accepted however it is cut. -/
structure GoodClose (cfg : RxConfig) (f : Frame) : Prop extends GoodBody cfg.limit f.payload where
  frame : CloseFrame cfg.server f

section

variable {cfg : RxConfig} {rx : Rx} {f : Frame}

theorem GoodClose.verdict (hf : GoodClose cfg f) (waiting : Option Draft) :
    closeVerdict cfg waiting f.payload = .done 8 f.payload ⟨waiting, none⟩ := by
  have htext : Utf8.read [] (f.payload.drop 2) = some [] := by
    rcases hf.allowed with hnil | ⟨-, -, hwf⟩
    · rw [hnil]
      rfl
    · exact (Utf8.wellFormed_iff _).1 hwf
  have hstatus : ¬ (2 ≤ f.payload.length ∧
      eventIsValidStatusCode (statusOf f.payload) = false) := by
    rintro ⟨htwo, hbad⟩
    rcases hf.allowed with hnil | ⟨-, hvalid, -⟩
    · rw [hnil] at htwo
      exact absurd htwo (by decide)
    · rw [statusOf, if_pos htwo, hvalid] at hbad
      cases hbad
  unfold closeVerdict
  rw [if_neg (Nat.not_lt.2 hf.fits), if_neg (not_not.2 htext), if_neg hstatus]

/-- **What comes of the Close**, in one piece. -/
theorem GoodClose.report (hf : GoodClose cfg f) (hbetween : rx.frame = none) :
    ∃ calls, (∀ c ∈ calls, c.isMsg = false) ∧ rx.react true cfg f.item =
      ⟨calls ++ [msgCall 8 f.payload], [.close (statusOf f.payload) (f.payload.drop 2)],
        .off (some (statusOf f.payload)) 0⟩ := by
  obtain ⟨calls, hcalls, hpiece⟩ := hf.frame.piece hbetween
  refine ⟨calls, hcalls, ?_⟩
  show (rx.piece 2 cfg f.header f.payload).report true = _
  rw [hpiece, hf.verdict]
  rfl

/-- **A part of the Close** does not stop the receiver. -/
theorem GoodClose.part (hf : GoodClose cfg f) (hbetween : rx.frame = none) {data : List UInt8}
    (hpart : data <+: f.payload) (hlt : data.length < f.payload.length) (q : Bool) :
    ∃ rx', (rx.react q cfg (.piece f.header data)).fate = .live rx' := by
  have hadmits := hf.frame.admits rx.waiting
  rw [if_neg (Nat.not_lt.2 hf.fits)] at hadmits
  obtain ⟨p, hp⟩ : ∃ p : Progress, ⟨f.header, 0, ⟨8, [], f.payload.length, []⟩⟩ = p := ⟨_, rfl⟩
  rw [hp] at hadmits
  have he : rx.enter cfg f.header = .ok ([f.header.startCall], p, rx.waiting) := by
    unfold Rx.enter
    simp only [hbetween, hadmits]
  have hscan : p.draft.scan 2 data = some [] := by
    refine Draft.scan_ascii ?_ ?_ ?_
    · rw [← hp]
    · rw [← hp]
    · intro b hb
      obtain ⟨rest, hrest⟩ := hpart
      refine hf.ascii b ?_
      rw [← hrest]
      exact mem_drop_append_left hb
  have hshort : p.off + data.length ≠ p.header.length := by
    rw [← hp]
    show 0 + data.length ≠ f.payload.length
    omega
  show ∃ rx', ((rx.piece 2 cfg f.header data).report q).fate = .live rx'
  rw [Rx.piece_ok he]
  rcases p.piece_cases 2 cfg rx.waiting data with ⟨hnone, -⟩ | ⟨text, -, ⟨hend, -⟩ | ⟨-, heq⟩⟩
  · rw [hscan] at hnone
    cases hnone
  · exact absurd hend hshort
  · rw [heq]
    exact ⟨_, rfl⟩

/-- The pieces of a part of a frame. -/
theorem streamItems_part (hv : f.header.Valid) {x more : List UInt8}
    (hx : x ++ more = f.encode) (hmore : more ≠ []) :
    streamItems x = [] ∨ ∃ data, data <+: f.payload ∧ data.length < f.payload.length ∧
      streamItems x = [.piece f.header data] := by
  have hwhole : parseHeader (x ++ more) = .header f.header (f.header.mask 0 f.payload) := by
    rw [hx]
    exact parseHeader_encode hv _
  cases hp : parseHeader x with
  | more =>
    left
    unfold streamItems
    rw [decodeStream_more hp]
    rfl
  | malformed =>
    rw [parseHeader_malformed_append hp] at hwhole
    cases hwhole
  | header h rest =>
    have happend := parseHeader_header_append hp more
    rw [hwhole] at happend
    obtain ⟨hheader, hrest⟩ := Parse.header.inj happend
    obtain ⟨hdecode, -⟩ := parseHeader_header hp
    rw [hdecode, ← hheader, streamItems_header hv]
    have hlen : rest.length < f.payload.length := by
      have hl := congrArg List.length hrest
      rw [Header.length_mask, List.length_append] at hl
      have hpos := List.length_pos_of_ne_nil hmore
      omega
    unfold payloadItems
    rw [if_pos (show rest.length < f.header.length - 0 from hlen)]
    by_cases hnil : rest = []
    · rw [if_pos hnil]
      exact Or.inl rfl
    · rw [if_neg hnil]
      refine Or.inr ⟨f.header.mask 0 rest, ?_, ?_, rfl⟩
      · have hmask := congrArg (f.header.mask 0) hrest
        rw [Header.mask_mask, Header.mask_append] at hmask
        rw [hmask]
        exact List.prefix_append _ _
      · rw [Header.length_mask]
        exact hlen

end

/-! ## A front of frames and a Close -/

/-- The frames that a peer may send: legal ones, and behind them perhaps a Close. -/
structure LeaveTaking (cfg : RxConfig) (pre : List Frame) (close : Option Frame) : Prop where
  sendable : Sendable cfg pre
  good : ∀ f, close = some f → GoodClose cfg f

/-- The data messages that a report delivers. -/
def Report.data (R : Report) : List (Fin 16 × List UInt8) := R.messages.filter isDataMessage

/-- What comes of reading the frames `pre` and perhaps a Close, of which the octets `more`
are still to come. -/
structure TakesLeave (pre : List Frame) (close : Option Frame) (more : List UInt8) (R : Report) :
    Prop where
  data : R.data <+: (Assembly.idle.allMessages pre).filter isDataMessage
  gone : ∀ heard r, R.fate = .off heard r → ∃ f, close = some f ∧ more = [] ∧
    heard = some (statusOf f.payload) ∧
    R.data = (Assembly.idle.allMessages pre).filter isDataMessage

section

variable {cfg : RxConfig} {pre : List Frame} {f : Frame} {close : Option Frame}
  {items : List Item} {d : Dec} {got look more : List UInt8}

theorem messages_of_noMsg {calls : List Call} (h : ∀ c ∈ calls, c.isMsg = false) :
    calls.flatMap messageOf = [] := by
  refine List.flatMap_eq_nil_iff.2 ?_
  intro c hc
  have hno := h c hc
  cases c <;> first | rfl | cases hno

/-- The frames, and the Close behind them. -/
theorem LeaveTaking.run (hbuf : cfg.noBuffering = false) (hdel : cfg.delivers = true)
    (hlimit : cfg.limit < 2 ^ 64) (hs : LeaveTaking cfg pre (some f)) :
    ∃ calls, (∀ c ∈ calls, c.isMsg = false) ∧
      (Rx.fresh.run true cfg ((pre ++ [f]).map Frame.item)).calls.flatMap messageOf =
        Assembly.idle.allMessages pre ++ (calls ++ [msgCall 8 f.payload]).flatMap messageOf ∧
      (Rx.fresh.run true cfg ((pre ++ [f]).map Frame.item)).fate =
        .off (some (statusOf f.payload)) 0 := by
  have hblind : ∀ x, messageOf (.frameRecvChunk x) = [] := fun _ => rfl
  obtain ⟨-, hrun⟩ := hs.sendable.fits.front (q := true) hblind hdel Assembly.ok_idle
    hs.sendable.valid hs.sendable.noClose hlimit
  rw [Assembly.run_legal hs.sendable.legal hs.sendable.fits] at hrun
  change Rx.fresh.run true cfg (pre.map Frame.item) = _ at hrun
  have hbetween : ((Assembly.idle.afterAll pre).rx cfg).frame = none := rfl
  obtain ⟨calls, hcalls, hreport⟩ := (hs.good f rfl).report hbetween
  have hlast : ((Assembly.idle.afterAll pre).rx cfg).run true cfg [f.item] =
      ⟨calls ++ [msgCall 8 f.payload], [.close (statusOf f.payload) (f.payload.drop 2)],
        .off (some (statusOf f.payload)) 0⟩ := by
    show (((Assembly.idle.afterAll pre).rx cfg).react true cfg f.item).andThen _ = _
    rw [hreport]
    rfl
  refine ⟨calls, hcalls, ?_⟩
  rw [List.map_append, Rx.run_append, hrun]
  show (_ ++ (((Assembly.idle.afterAll pre).rx cfg).run true cfg [f.item]).calls).flatMap messageOf
      = _ ∧ (((Assembly.idle.afterAll pre).rx cfg).run true cfg [f.item]).fate = _
  rw [hlast, List.flatMap_append, messages_along hbuf]
  exact ⟨rfl, rfl⟩

theorem LeaveTaking.ascii (hs : LeaveTaking cfg pre (some f)) :
    AsciiReasons ((pre ++ [f]).flatMap Frame.encode) := by
  refine AsciiReasons.of_frames ?_ ?_
  · intro g hg
    rcases List.mem_append.1 hg with hg | hg
    · exact hs.sendable.valid g hg
    · rw [List.mem_singleton.1 hg]
      exact (hs.good f rfl).frame.valid
  · intro g hg h8
    rcases List.mem_append.1 hg with hg | hg
    · exact absurd h8 (hs.sendable.noClose g hg)
    · rw [List.mem_singleton.1 hg]
      exact (hs.good f rfl).ascii

/-- **Where the reasons are ASCII**, any reading comes to what the octets come to. -/
theorem Reads.ascii (h : Reads .head got items d look) {octets : List UInt8}
    (hmore : got ++ more = octets) (hascii : AsciiReasons octets) :
    Report.Alike messageOf (Rx.fresh.run true cfg (streamItems octets))
      ((Rx.fresh.run true cfg items).andThen fun rx =>
        rx.run true cfg (d.items (look ++ more))) := by
  have hg : ∀ x y, unlessChunk (.frameRecvChunk (x ++ y)) =
      unlessChunk (.frameRecvChunk x) ++ unlessChunk (.frameRecvChunk y) := fun _ _ => rfl
  have hmeets : Rx.fresh.Meets true cfg (Rx.Smooth unlessChunk cfg) (streamItems octets) :=
    Rx.meets_stream _ _ (decodeStream_valid octets) (Rx.Sound.fresh cfg) rfl hascii
  have hplace : Rx.fresh.Place .head := Or.inl rfl
  subst hmore
  have hcuts := (h.extend more).cuts hg hplace hmeets
  have hk : ∀ calls : List Call,
      calls.flatMap messageOf = (calls.flatMap unlessChunk).flatMap messageOf := by
    intro calls
    rw [List.flatMap_assoc]
    refine List.flatMap_congr ?_
    intro c _
    cases c <;> rfl
  exact hcuts.mono hk

/-- **The Close does not stop the receiver before its last octet.** -/
theorem LeaveTaking.unfinished (hdel : cfg.delivers = true) (hbuf : cfg.noBuffering = false)
    (hlimit : cfg.limit < 2 ^ 64) (hs : LeaveTaking cfg pre (some f))
    (h : Reads .head got items d look) (hmore : got ++ more = (pre ++ [f]).flatMap Frame.encode)
    (hne : more ≠ []) : ∃ rx, (Rx.fresh.run true cfg items).fate = .live rx := by
  have hsplit : got ++ more = pre.flatMap Frame.encode ++ f.encode := by
    rw [hmore, List.flatMap_append]
    simp
  rcases List.append_eq_append_iff.1 hsplit with ⟨y, hpre, -⟩ | ⟨x, hgot, hf⟩
  · -- the octets are among those of the frames before
    exact (h.of_sent hbuf hdel hlimit hs.sendable hpre.symm).1.live
  · have hgood := hs.good f rfl
    have hpart := streamItems_part hgood.frame.valid hf.symm hne
    have hitems : streamItems got = pre.map Frame.item ++ streamItems x := by
      rw [hgot]
      exact streamItems_flatMap hs.sendable.valid x
    have hascii : AsciiReasons got := by
      intro i hi h data hpiece h8
      rw [hitems] at hi
      rcases List.mem_append.1 hi with hi | hi
      · obtain ⟨g, hg, hit⟩ := List.mem_map.1 hi
        rw [← hit] at hpiece
        cases hpiece
        exact absurd h8 (hs.sendable.noClose g hg)
      · rcases hpart with hnil | ⟨part, ⟨rest, hrest⟩, -, hone⟩
        · rw [hnil] at hi
          cases hi
        · rw [hone] at hi
          rw [List.mem_singleton.1 hi] at hpiece
          cases hpiece
          intro b hb
          refine hgood.ascii b ?_
          rw [← hrest]
          exact mem_drop_append_left hb
    have hcuts : Report.Alike messageOf (Rx.fresh.run true cfg (streamItems got)) _ :=
      h.ascii (List.append_nil got) hascii
    have hblind : ∀ x, messageOf (.frameRecvChunk x) = [] := fun _ => rfl
    obtain ⟨-, hrun⟩ := hs.sendable.fits.front (q := true) hblind hdel Assembly.ok_idle
      hs.sendable.valid hs.sendable.noClose hlimit
    rw [Assembly.run_legal hs.sendable.legal hs.sendable.fits] at hrun
    change Rx.fresh.run true cfg (pre.map Frame.item) = _ at hrun
    have hlive : ∃ rx, (Rx.fresh.run true cfg (streamItems got)).fate = .live rx := by
      rw [hitems, Rx.run_append, hrun]
      rcases hpart with hnil | ⟨part, hpre, hlt, hone⟩
      · rw [hnil]
        exact ⟨_, rfl⟩
      · have hbetween : ((Assembly.idle.afterAll pre).rx cfg).frame = none := rfl
        obtain ⟨rx', hrx⟩ := hgood.part hbetween hpre hlt true
        rw [hone]
        refine ⟨rx', ?_⟩
        show ((((Assembly.idle.afterAll pre).rx cfg).react true cfg (.piece f.header part)).andThen
          fun rx => rx.run true cfg []).fate = .live rx'
        rw [show (fun rx : Rx => rx.run true cfg []) = Report.start from rfl, Report.andThen_start]
        exact hrx
    obtain ⟨rx, hrx⟩ := hlive
    cases hfate : (Rx.fresh.run true cfg items).fate with
    | live rx' => exact ⟨rx', rfl⟩
    | off heard r =>
      rw [hcuts.fate, Report.andThen_off hfate, hfate] at hrx
      cases hrx

/-- What is read of the frames and the Close comes to what they come to. -/
theorem Reads.alike_leaving (h : Reads .head got items d look)
    (hs : LeaveTaking cfg pre (some f))
    (hmore : got ++ more = (pre ++ [f]).flatMap Frame.encode) :
    Report.Alike messageOf (Rx.fresh.run true cfg ((pre ++ [f]).map Frame.item))
      ((Rx.fresh.run true cfg items).andThen fun rx =>
        rx.run true cfg (d.items (look ++ more))) := by
  have hv : ∀ g ∈ pre ++ [f], g.header.Valid := by
    intro g hg
    rcases List.mem_append.1 hg with hg | hg
    · exact hs.sendable.valid g hg
    · rw [List.mem_singleton.1 hg]
      exact (hs.good f rfl).frame.valid
  rw [← streamItems_frames hv]
  exact h.ascii hmore hs.ascii

/-- **What comes of a front of frames and a Close behind them**: the receiver goes on until
the last octet of the Close, and then it has delivered all of them. -/
theorem Reads.of_leaving (h : Reads .head got items d look) (hbuf : cfg.noBuffering = false)
    (hdel : cfg.delivers = true) (hlimit : cfg.limit < 2 ^ 64) (hs : LeaveTaking cfg pre close)
    (hmore : got ++ more = (pre ++ close.toList).flatMap Frame.encode) :
    TakesLeave pre close more (Rx.fresh.run true cfg items) := by
  cases close with
  | none =>
    rw [Option.toList_none, List.append_nil] at hmore
    obtain ⟨hway, -⟩ := h.of_sent hbuf hdel hlimit hs.sendable hmore
    refine ⟨hway.messages.filter _, ?_⟩
    intro heard r hoff
    obtain ⟨rx, hlive⟩ := hway.live
    rw [hlive] at hoff
    cases hoff
  | some f =>
    have hcuts := h.alike_leaving hs hmore
    obtain ⟨calls, hcalls, hmsgs, hfate⟩ := hs.run hbuf hdel hlimit
    have hmessages : (Rx.fresh.run true cfg ((pre ++ [f]).map Frame.item)).data =
        (Assembly.idle.allMessages pre).filter isDataMessage := by
      unfold Report.data Report.messages
      rw [← flatMap_messageOf, hmsgs, List.flatMap_append, messages_of_noMsg hcalls,
        List.nil_append, List.filter_append]
      exact List.append_nil _
    obtain ⟨hpcalls, -⟩ := Report.prefix_andThen (Rx.fresh.run true cfg items)
      fun rx => rx.run true cfg (d.items (look ++ more))
    refine ⟨?_, ?_⟩
    · rw [← hmessages]
      unfold Report.data Report.messages
      rw [← flatMap_messageOf, ← flatMap_messageOf, hcuts.calls]
      exact (hpcalls.flatMap messageOf).filter _
    · intro heard r hoff
      have hnil : more = [] := by
        by_contra hne
        obtain ⟨rx, hlive⟩ := hs.unfinished hdel hbuf hlimit h hmore hne
        rw [hlive] at hoff
        cases hoff
      rw [Report.andThen_off hoff] at hcuts
      have hheard := hcuts.fate
      rw [hfate, hoff] at hheard
      refine ⟨f, rfl, hnil, (Fate.off.inj hheard).1.symm, ?_⟩
      rw [← hmessages]
      unfold Report.data Report.messages
      rw [← flatMap_messageOf, ← flatMap_messageOf, hcuts.calls]

/-- **A receiver that has been given the Close does not go on.** -/
theorem LeaveTaking.stops (hs : LeaveTaking cfg pre (some f)) (hbuf : cfg.noBuffering = false)
    (hdel : cfg.delivers = true) (hlimit : cfg.limit < 2 ^ 64) (h : Reads .head got items d look)
    (hgot : got = (pre ++ [f]).flatMap Frame.encode) (hok : d.Ok)
    (hwait : takePiece d look = .wait d look) :
    (Rx.fresh.run true cfg items).fate.isLive = false := by
  have hcuts := h.alike_leaving hs ((List.append_nil got).trans hgot)
  have hnone : d.items (look ++ []) = [] := by
    rw [List.append_nil]
    exact Dec.items_wait hok hwait
  rw [hnone] at hcuts
  have hend : ((Rx.fresh.run true cfg items).andThen fun rx => rx.run true cfg []) =
      Rx.fresh.run true cfg items := Report.andThen_start _
  obtain ⟨-, -, -, hfate⟩ := hs.run hbuf hdel hlimit
  rw [hend] at hcuts
  rw [← hcuts.fate, hfate]
  rfl

end

end Wslay
