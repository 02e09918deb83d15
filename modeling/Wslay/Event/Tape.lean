import Wslay.Event.Following

/-!
# The pieces that a run reads

A run of `wslay_event_recv` cuts the octets it is given into pieces, and its
report is the report of the receiver on them.  Where the cuts are depends on the
buffer and on `recv_callback`; the octets between them do not.

* `Reads` — octets, and a sequence of pieces that they can be cut into.
* `Trace` — from one state to another the context has read some octets.
* `eventRecv_trace` — **what one call of `wslay_event_recv` does**.
* `recvRun_trace` — what a run of calls does.
* `Io.Calm` — the runs that begin with a new context and meet no failure.
-/

namespace Wslay

open Loop (Step)

/-! ## Cutting octets into pieces -/

/-- From `d` on, the octets can be read as `items`, which leads to `d'` with the
octets `look'` in hand. -/
inductive Reads : Dec → List UInt8 → List Item → Dec → List UInt8 → Prop
  | stop (d : Dec) (look : List UInt8) : Reads d look [] d look
  /-- A header has been read, and none of the payload. -/
  | header {h : Header} {look : List UInt8} {items : List Item} {d' : Dec} {look' : List UInt8} :
      h.Valid → 0 < h.length → Reads (.body h 0) look items d' look' →
      Reads .head (h.encode ++ look) items d' look'
  | piece {d : Dec} {hdr raw look : List UInt8} {h : Header} {off : Nat} {items : List Item}
      {d' : Dec} {look' : List UInt8} :
      d.Enters hdr h off → h.Valid → off + raw.length ≤ h.length → (raw = [] → h.length = off) →
      Reads (Dec.after h off raw.length) look items d' look' →
      Reads d (hdr ++ (raw ++ look)) (.piece h (h.mask off raw) :: items) d' look'
  | malformed {look : List UInt8} : parseHeader look = .malformed →
      Reads .head look [.malformed] .head look

/-- What the receiver is handed of what comes next. -/
def Piece.items : Piece → List Item
  | .wait _ _ => []
  | .bad => [.malformed]
  | .piece h _ data _ _ => [.piece h data]

/-- More octets can follow. -/
theorem Reads.extend {d d' : Dec} {look look' : List UInt8} {items : List Item}
    (h : Reads d look items d' look') (more : List UInt8) :
    Reads d (look ++ more) items d' (look' ++ more) := by
  induction h with
  | stop d look => exact .stop d _
  | header hv hpos _ ih =>
    rw [List.append_assoc]
    exact .header hv hpos ih
  | piece henter hv hle hempty _ ih =>
    rw [List.append_assoc, List.append_assoc]
    exact .piece henter hv hle hempty ih
  | malformed hp => exact .malformed (parseHeader_malformed_append hp more)

/-- One reading after the other. -/
theorem Reads.trans {d d' d'' : Dec} {look look' look'' : List UInt8} {items items' : List Item}
    (h : Reads d look items d' look') (hok : Item.malformed ∉ items)
    (h' : Reads d' look' items' d'' look'') : Reads d look (items ++ items') d'' look'' := by
  induction h with
  | stop d look => exact h'
  | header hv hpos _ ih => exact .header hv hpos (ih hok h')
  | piece henter hv hle hempty _ ih =>
    exact .piece henter hv hle hempty (ih (fun hm => hok (List.mem_cons_of_mem _ hm)) h')
  | malformed hp => exact absurd (List.mem_singleton_self _) hok

/-- The verdict on which the receiver goes on. -/
theorem Reaction.report_live {q : Bool} {R : Reaction} {rx : Rx}
    (h : (R.report q).fate = .live rx) :
    R.verdict = .more rx ∨ ∃ opcode msg, R.verdict = .done opcode msg rx := by
  unfold Reaction.report at h
  cases hv : R.verdict with
  | more rx' =>
    rw [hv] at h
    cases h
    exact Or.inl rfl
  | reject code =>
    rw [hv] at h
    cases h
  | overflow =>
    rw [hv] at h
    cases h
  | done opcode msg rx' =>
    rw [hv] at h
    simp only at h
    by_cases h8 : opcode = 8
    · rw [if_pos h8] at h
      split_ifs at h
    rw [if_neg h8] at h
    cases h
    exact Or.inr ⟨opcode, msg, rfl⟩

theorem Verdict.Sound.live {cfg : RxConfig} {v : Verdict} {rx : Rx} (hs : v.Sound cfg)
    (h : v = .more rx ∨ ∃ opcode msg, v = .done opcode msg rx) : rx.Sound cfg := by
  rcases h with rfl | ⟨opcode, msg, rfl⟩
  · exact hs
  · exact hs.1

/-- A receiver that goes on has met no malformed header. -/
theorem Rx.run_live {q : Bool} {cfg : RxConfig} {rx rx' : Rx} {items : List Item}
    (h : (rx.run q cfg items).fate = .live rx') : Item.malformed ∉ items := by
  induction items generalizing rx with
  | nil => simp
  | cons i items ih =>
    have hrun : rx.run q cfg (i :: items) =
      (rx.react q cfg i).andThen fun rx => rx.run q cfg items := rfl
    rw [hrun] at h
    cases hf : (rx.react q cfg i).fate with
    | off heard r =>
      rw [Report.andThen_off hf, hf] at h
      cases h
    | live rx₁ =>
      rw [Report.andThen_live hf] at h
      rw [List.mem_cons, not_or]
      refine ⟨?_, ih h⟩
      rintro rfl
      cases hf

/-! ## Traces -/

/-- **From `s` to `s'` the context has read the octets `new` as `items`**, which has
brought it from `rx` and `d`, with `look` in hand, to `d'` and `look'`. -/
structure Trace (cfg : RxConfig) (q : Bool) (s : EventContext × Io) (rx : Rx) (d : Dec)
    (look : List UInt8) (s' : EventContext × Io) (new : List UInt8) (items : List Item) (d' : Dec)
    (look' : List UInt8) : Prop where
  received : s'.2.received = s.2.received ++ new
  pending : pendingOctets s.2.recvs = new ++ pendingOctets s'.2.recvs
  fewer : s'.2.recvs.length ≤ s.2.recvs.length
  reads : Reads d (look ++ new) items d' look'
  follows : Follows s s' (rx.run q cfg items)
  listens : ∀ rx', (rx.run q cfg items).fate = .live rx' →
    Listens cfg s' rx' d' look' ∧ rx'.Sound cfg

/-- The context receives, the application only looks on, no allocation fails, and
no callback does. -/
structure Runs (cfg : RxConfig) (q : Bool) (s : EventContext × Io) (rx : Rx) (d : Dec)
    (look : List UInt8) : Prop where
  listens : Listens cfg s rx d look
  sound : rx.Sound cfg
  enabled : s.1.readEnabled = true
  apps : s.2.apps = []
  mem : s.2.MemOk
  quiet : s.2.Quiet
  queueable : eventIsMsgQueueable s.1 = q

section

variable {cfg : RxConfig} {q : Bool} {s s' s'' : EventContext × Io} {rx rx' : Rx} {d d' d'' : Dec}
  {look look' look'' new new' : List UInt8} {items items' : List Item}

theorem Trace.start (hr : Runs cfg q s rx d look) : Trace cfg q s rx d look s [] [] d look where
  received := (List.append_nil _).symm
  pending := rfl
  fewer := Nat.le_refl _
  reads := by
    rw [List.append_nil]
    exact .stop d look
  follows := .start s rx
  listens := by
    rintro rx' ⟨⟩
    exact ⟨hr.listens, hr.sound⟩

/-- After a trace the context goes on, as long as its receiver does. -/
theorem Trace.runs (ht : Trace cfg q s rx d look s' new items d' look')
    (hr : Runs cfg q s rx d look) (hlive : (rx.run q cfg items).fate = .live rx') :
    Runs cfg q s' rx' d' look' where
  listens := (ht.listens rx' hlive).1
  sound := (ht.listens rx' hlive).2
  enabled := by
    rw [ht.follows.enabled, hlive, hr.enabled]
    rfl
  apps := ht.follows.apps.trans hr.apps
  mem := fun hf => hr.mem (ht.follows.mem.subset hf)
  quiet := ht.follows.quiet hr.quiet
  queueable := (ht.follows.queueable hlive (rx.run_onlyPongs q cfg items)).trans hr.queueable

/-- One trace after the other. -/
theorem Trace.trans (ht : Trace cfg q s rx d look s' new items d' look')
    (hlive : (rx.run q cfg items).fate = .live rx')
    (ht' : Trace cfg q s' rx' d' look' s'' new' items' d'' look'') :
    Trace cfg q s rx d look s'' (new ++ new') (items ++ items') d'' look'' := by
  have hrun := rx.run_append q cfg items items'
  rw [Report.andThen_live hlive] at hrun
  refine ⟨?_, ?_, ht'.fewer.trans ht.fewer, ?_, ?_, ?_⟩
  · rw [ht'.received, ht.received, List.append_assoc]
  · rw [ht.pending, ht'.pending, List.append_assoc]
  · have hreads := ht.reads.extend new'
    rw [List.append_assoc] at hreads
    exact hreads.trans (Rx.run_live hlive) ht'.reads
  · rw [hrun]
    exact ht.follows.trans hlive ht'.follows
  · rw [hrun]
    exact ht'.listens

/-! ## One pass -/

/-- Where the frame stands that a piece belongs to. -/
theorem Rx.Place.enter (hp : rx.Place d) {hdr : List UInt8} {h : Header} {off : Nat}
    (henter : d.Enters hdr h off) {calls : List Call} {f : Progress}
    {waiting : Option Draft} (he : rx.enter cfg h = .ok (calls, f, waiting)) :
    f.header = h ∧ f.off = off := by
  unfold Rx.Place at hp
  unfold Rx.enter at he
  cases hf : rx.frame with
  | some g =>
    simp only [hf] at hp he
    cases he
    subst hp
    rcases henter with ⟨hd, -⟩ | ⟨hd, -⟩ <;> cases hd
    exact ⟨rfl, rfl⟩
  | none =>
    simp only [hf] at hp he
    have hoff : off = 0 := by
      rcases henter with ⟨-, h0, -⟩ | ⟨hd, -⟩
      · exact h0
      · rcases hp with rfl | ⟨h', rfl⟩ <;> cases hd
        rfl
    cases ha : Rx.admits cfg rx.waiting h with
    | error code => simp [ha] at he
    | ok z =>
      rw [ha] at he
      cases he
      obtain ⟨hh, h0⟩ := admits_ok ha
      exact ⟨hh, h0.trans hoff.symm⟩

/-- The piece that comes next keeps the receiver sound. -/
theorem Rx.Place.sound (hp : rx.Place d) (hs : rx.Sound cfg) {hdr raw : List UInt8} {h : Header}
    {off : Nat} (henter : d.Enters hdr h off) (hv : h.Valid) (hle : off + raw.length ≤ h.length)
    (skip : Nat) : (rx.piece skip cfg h (h.mask off raw)).verdict.Sound cfg := by
  cases he : rx.enter cfg h with
  | error code =>
    rw [Rx.piece_error he]
    exact trivial
  | ok x =>
    obtain ⟨calls, f, waiting⟩ := x
    refine hs.piece hv he ?_ skip
    obtain ⟨hh, h0⟩ := hp.enter henter he
    rw [Header.length_mask, hh, h0]
    exact hle

/-- What a pass has come to: the context goes on, it waits for more, or reading is
over. -/
def PassEnds (s s' : EventContext × Io) (d' : Dec) (look' : List UInt8) : Fate → Prop
  | .live _ => recvPass s = .again s' ∨
      recvPass s = .leave 0 s' ∧ takePiece d' look' = .wait d' look' ∧ Asked s.2 s'.2
  | .off _ r => recvPass s = .leave r s' ∨ recvPass s = .again s' ∧ r = 0

/-- Waiting is no failure as long as no callback fails. -/
theorem recvFrameError_wantRead {c : EventContext} {io : Io} (hq : io.Quiet) :
    recvFrameError .wantRead c io = .leave 0 (c, io) := by
  refine if_neg ?_
  rintro (h | ⟨h1, h2⟩)
  · exact h rfl
  · rcases hq.error with h | h
    · exact h2 h
    · exact h1 h

/-- Where the decoder stands after what comes next of the octets `look`. -/
def Piece.next (look : List UInt8) : Piece → Dec × List UInt8
  | .wait d look' => (d, look')
  | .bad => (.head, look)
  | .piece _ _ _ d look' => (d, look')

/-- The octets do not suffice. -/
def Piece.waits : Piece → Bool
  | .wait _ _ => true
  | _ => false

/-- **What a pass does with a piece is what the report says**: it follows the report of
the piece, and leaves the input as the frame layer left it. -/
theorem TakesPiece.follows {octets hdr raw look' : List UInt8} {h : Header} {off : Nat} {d' : Dec}
    (ht : TakesPiece cfg s (fed s) rx d octets h off hdr raw d' look') {bs : List UInt8}
    (hdel : Delivers s.2 bs (fed s).2) (hquiet : s.2.Quiet → (fed s).2.Quiet)
    (hsend : (fed s).1.sendHalf = s.1.sendHalf) (hplace : rx.Place d) (hsound : rx.Sound cfg)
    (happs : s.2.apps = []) (hmem : s.2.MemOk) (hq : eventIsMsgQueueable s.1 = q) :
    ∃ s', Follows s s' ((rx.piece 2 cfg h (h.mask off raw)).report q) ∧ SameInput (fed s) s' ∧
      match ((rx.piece 2 cfg h (h.mask off raw)).report q).fate with
      | .live rx' => recvPass s = .again s' ∧ Models cfg s'.1 rx'
      | .off _ r => recvPass s = .leave r s' ∨ recvPass s = .again s' ∧ r = 0 := by
  have hf : Follows s (fed s) (.start rx) := hdel.follows hquiet hsend rx
  have hmem₁ : (fed s).2.MemOk := fun h => hmem (hf.mem.subset h)
  have hq₁ : eventIsMsgQueueable (fed s).1 = q :=
    (hf.queueable rfl (Rx.run_onlyPongs q cfg rx [])).trans hq
  have hout := ht.outcome.resolve_left fun hfail => hfail.1 hmem₁
  obtain ⟨s', hfol, hin, hfate⟩ := hout.follows (hplace.sound hsound ht.enters ht.valid ht.fits 2)
    (hf.apps.trans happs) hmem₁ hq₁
  exact ⟨s', hf.trans rfl hfol, hin, hfate⟩

/-- **One pass**: it reads what comes next, and whether it goes round again depends on
that alone. -/
theorem recvPass_takes (hr : Runs cfg q s rx d look) :
    ∃ bs, Delivers s.2 bs (fed s).2 ∧ ∃ s' d' look', SameInput (fed s) s' ∧
      Trace cfg q s rx d look s' bs (takePiece d (look ++ bs)).items d' look' ∧
      PassEnds s s' d' look' (rx.run q cfg (takePiece d (look ++ bs)).items).fate ∧
      (takePiece d (look ++ bs)).next (look ++ bs) = (d', look') ∧
      ∀ rx', (rx.run q cfg (takePiece d (look ++ bs)).items).fate = .live rx' →
        recvPass s = if (takePiece d (look ++ bs)).waits then .leave 0 s' else .again s' := by
  obtain ⟨bs, hdel, hquiet, hsend, hcases⟩ := recvPass_steps hr.listens hr.enabled
  have hf₁ : Follows s (fed s) (.start rx) := hdel.follows hquiet hsend rx
  have hq₁ : eventIsMsgQueueable (fed s).1 = q :=
    (hf₁.queueable rfl (Rx.run_onlyPongs q cfg rx [])).trans hr.queueable
  have hmem₁ : (fed s).2.MemOk := fun hf => hr.mem (hf₁.mem.subset hf)
  refine ⟨bs, hdel, ?_⟩
  rcases hcases with ⟨d', look', hp, hpass, hasked, hwait, hl, hdr, hlook, hwhere⟩ | ⟨hp, hpass⟩ |
    ⟨h, off, hdr, raw, d', look', hp, -, ht⟩
  · -- the pass waits
    rw [hp]
    refine ⟨fed s, d', look', ⟨rfl, rfl, rfl⟩,
      ⟨hdel.received, hdel.pending, hdel.fewer, ?_, hf₁, ?_⟩,
      Or.inr ⟨hpass.trans (recvFrameError_wantRead (hquiet hr.quiet)), hwait, hasked⟩,
      rfl, fun rx' _ => hpass.trans (recvFrameError_wantRead (hquiet hr.quiet))⟩
    · rw [hlook]
      rcases hwhere with ⟨rfl, rfl⟩ | ⟨h, rfl, rfl, rfl⟩
      · exact .stop _ _
      · have hok := hl.ready.ok
        exact .header hok.1 hok.2 (.stop _ _)
    · rintro rx' ⟨⟩
      exact ⟨hl, hr.sound⟩
  · -- a malformed header
    rw [hp]
    obtain ⟨rfl, hparse⟩ := takePiece_bad hp
    obtain ⟨s', heq, hin, hf⟩ := recvFrameError_follows hq₁ hmem₁ cfg rx
    have hrun : rx.run q cfg [.malformed] = rx.react q cfg .malformed := Report.andThen_start _
    have hf' : Follows s s' (rx.react q cfg .malformed) := hf₁.trans rfl hf
    refine ⟨s', .head, look ++ bs, hin, ⟨?_, ?_, ?_, .malformed hparse, ?_, ?_⟩,
      Or.inl (hpass.trans heq), rfl, fun rx' hlive => by cases hlive⟩
    · rw [hin.received, hdel.received]
    · rw [hin.recvs, hdel.pending]
    · rw [hin.recvs]
      exact hdel.fewer
    · change Follows s s' (rx.run q cfg [.malformed])
      rw [hrun]
      exact hf'
    · rintro rx' ⟨⟩
  · -- a piece
    rw [hp]
    have hrun : rx.run q cfg [.piece h (h.mask off raw)] =
        (rx.piece 2 cfg h (h.mask off raw)).report q := Report.andThen_start _
    have hplace := hr.listens.place
    have hsound := hplace.sound hr.sound ht.enters ht.valid ht.fits 2
    obtain ⟨s', hf', hin, hfate⟩ := ht.follows hdel hquiet hsend hplace hr.sound hr.apps hr.mem
      hr.queueable
    refine ⟨s', d', look', hin, ⟨?_, ?_, ?_, ?_, ?_, ?_⟩, ?_, rfl, ?_⟩
    · rw [hin.received, hdel.received]
    · rw [hin.recvs, hdel.pending]
    · rw [hin.recvs]
      exact hdel.fewer
    · rw [ht.octets]
      refine .piece ht.enters ht.valid ht.fits ht.empty ?_
      rw [← ht.after]
      exact .stop d' look'
    · change Follows s s' (rx.run q cfg [.piece h (h.mask off raw)])
      rw [hrun]
      exact hf'
    · change ∀ rx', (rx.run q cfg [.piece h (h.mask off raw)]).fate = .live rx' → _
      rw [hrun]
      intro rx' hlive
      rw [hlive] at hfate
      obtain ⟨-, hmod⟩ := hfate
      have hv := Reaction.report_live hlive
      refine ⟨⟨ht.ready.congr hin.frame, hmod, ?_⟩, hsound.live hv⟩
      exact ht.after ▸ hplace.piece ht.enters ht.fits ht.empty hv
    · change PassEnds s s' d' look' (rx.run q cfg [.piece h (h.mask off raw)]).fate
      rw [hrun]
      cases hlive : ((rx.piece 2 cfg h (h.mask off raw)).report q).fate with
      | live rx' =>
        rw [hlive] at hfate
        exact Or.inl hfate.1
      | off heard r =>
        rw [hlive] at hfate
        exact hfate
    · change ∀ rx', (rx.run q cfg [.piece h (h.mask off raw)]).fate = .live rx' → _
      rw [hrun]
      intro rx' hlive
      rw [hlive] at hfate
      exact hfate.1

/-- **One pass**: it reads what comes next. -/
theorem recvPass_reads (hr : Runs cfg q s rx d look) :
    ∃ bs, Delivers s.2 bs (fed s).2 ∧ ∃ s' d' look', SameInput (fed s) s' ∧
      Trace cfg q s rx d look s' bs (takePiece d (look ++ bs)).items d' look' ∧
      PassEnds s s' d' look' (rx.run q cfg (takePiece d (look ++ bs)).items).fate := by
  obtain ⟨bs, hdel, s', d', look', hin, ht, hends, -⟩ := recvPass_takes hr
  exact ⟨bs, hdel, s', d', look', hin, ht, hends⟩

/-- **One pass.** -/
theorem recvPass_trace (hr : Runs cfg q s rx d look) :
    ∃ s' new items d' look', Trace cfg q s rx d look s' new items d' look' ∧
      PassEnds s s' d' look' (rx.run q cfg items).fate := by
  obtain ⟨bs, -, s', d', look', -, ht, hends⟩ := recvPass_reads hr
  exact ⟨s', bs, _, d', look', ht, hends⟩

/-! ## One call, and runs of them -/

/-- What a call has come to: the context waits for more, or reading is over. -/
def CallEnds (s s' : EventContext × Io) (r : Int) (d' : Dec) (look' : List UInt8) : Fate → Prop
  | .live _ => r = 0 ∧ takePiece d' look' = .wait d' look' ∧ Asked s.2 s'.2
  | .off _ r' => r = r'

theorem Runs.hears (hr : Runs cfg q s rx d look) : Hears cfg s :=
  fun _ => ⟨rx, d, look, hr.listens⟩

/-- The loop has come so far. -/
def Underway (cfg : RxConfig) (q : Bool) (s : EventContext × Io) (rx : Rx) (d : Dec)
    (look : List UInt8) (t : EventContext × Io) : Prop :=
  ∃ new items d' look', Trace cfg q s rx d look t new items d' look' ∧
    ∀ heard r, (rx.run q cfg items).fate = .off heard r → r = 0

theorem asked_later {io io₁ io' : Io} (h₁ : io₁.recvs.length ≤ io.recvs.length)
    (h' : io'.recvs.length ≤ io₁.recvs.length) (ha : Asked io₁ io') : Asked io io' := by
  rcases ha with hnil | hlt
  · rw [hnil, List.length_nil] at h'
    by_cases h0 : io.recvs = []
    · exact Or.inl h0
    · have := List.length_pos_of_ne_nil h0
      exact Or.inr (by omega)
  · exact Or.inr (by omega)

/-- A pass after others. -/
theorem Underway.pass (hr : Runs cfg q s rx d look) {t : EventContext × Io}
    (hu : Underway cfg q s rx d look t) :
    (∃ t', recvPass t = .again t' ∧ Underway cfg q s rx d look t') ∨
      ∃ r t' new items d' look', recvPass t = .leave r t' ∧
        Trace cfg q s rx d look t' new items d' look' ∧
        CallEnds s t' r d' look' (rx.run q cfg items).fate := by
  obtain ⟨new, items, d₁, look₁, ht, hzero⟩ := hu
  cases hfate : (rx.run q cfg items).fate with
  | off heard r =>
    -- reading has been shut down, so the loop ends here
    have hoff : t.1.readEnabled = false := by
      rw [ht.follows.enabled, hfate]
      rfl
    refine Or.inr ⟨0, t, new, items, d₁, look₁, ?_, ht, ?_⟩
    · unfold recvPass
      simp [hoff]
    · rw [hfate]
      exact (hzero heard r hfate).symm
  | live rx₁ =>
    have hr₁ := ht.runs hr hfate
    obtain ⟨t', new', items', d', look', ht', hends⟩ := recvPass_trace hr₁
    have htr := ht.trans hfate ht'
    have hrun : (rx.run q cfg (items ++ items')).fate = (rx₁.run q cfg items').fate := by
      rw [Rx.run_append, Report.andThen_live hfate]
    cases hfate' : (rx₁.run q cfg items').fate with
    | live rx₂ =>
      rw [hfate'] at hends
      rcases hends with hagain | ⟨hleave, hwait, hasked⟩
      · refine Or.inl ⟨t', hagain, _, _, _, _, htr, fun heard r hoff => ?_⟩
        rw [hrun, hfate'] at hoff
        cases hoff
      · refine Or.inr ⟨0, t', _, _, _, _, hleave, htr, ?_⟩
        rw [hrun, hfate']
        exact ⟨rfl, hwait, asked_later ht.fewer ht'.fewer hasked⟩
    | off heard r =>
      rw [hfate'] at hends
      rcases hends with hleave | ⟨hagain, rfl⟩
      · refine Or.inr ⟨r, t', _, _, _, _, hleave, htr, ?_⟩
        rw [hrun, hfate']
        exact rfl
      · refine Or.inl ⟨t', hagain, _, _, _, _, htr, fun heard' r' hoff => ?_⟩
        rw [hrun, hfate'] at hoff
        cases hoff
        rfl

/-- **What one call of `wslay_event_recv` does**: it reads some octets, and what it
does to the context is what the report of the receiver says. -/
theorem eventRecv_trace (hr : Runs cfg q s rx d look) :
    ∃ new items d' look', Trace cfg q s rx d look (eventRecv s.1 s.2).2 new items d' look' ∧
      CallEnds s (eventRecv s.1 s.2).2 (eventRecv s.1 s.2).1 d' look' (rx.run q cfg items).fate := by
  have hstart : Underway cfg q s rx d look s := by
    refine ⟨[], [], d, look, .start hr, ?_⟩
    rintro heard r ⟨⟩
  refine Loop.run_exit (P := Underway cfg q s rx d look) (Q := fun r t => ∃ new items d' look',
    Trace cfg q s rx d look t new items d' look' ∧ CallEnds s t r d' look' (rx.run q cfg items).fate)
    ?_ ?_ hstart (eventRecv_run hr.hears)
  · intro t t' hu hagain
    rcases hu.pass hr with ⟨t'', heq, hu'⟩ | ⟨r, t'', -, -, -, -, heq, -⟩ <;> rw [hagain] at heq <;>
      cases heq
    exact hu'
  · intro t r t' hu hleave
    rcases hu.pass hr with ⟨t'', heq, -⟩ | ⟨r', t'', new, items, d', look', heq, ht, hends⟩ <;>
      rw [hleave] at heq <;> cases heq
    exact ⟨new, items, d', look', ht, hends⟩

end

/-- `n` calls of `wslay_event_recv`. -/
def recvRun (s : EventContext × Io) (n : Nat) : EventContext × Io :=
  runOps s (List.replicate n .recv)

theorem recvRun_zero (s : EventContext × Io) : recvRun s 0 = s := rfl

theorem recvRun_succ (s : EventContext × Io) (n : Nat) :
    recvRun s (n + 1) = (eventRecv (recvRun s n).1 (recvRun s n).2).2 := by
  rw [recvRun, List.replicate_succ', runOps_append]
  rfl

/-- Once reading is over, `wslay_event_recv` does nothing. -/
theorem eventRecv_off {s : EventContext × Io} (hoff : s.1.readEnabled = false) :
    eventRecv s.1 s.2 = (0, s) := by
  have hpass : recvPass s = .leave 0 s := by
    unfold recvPass
    simp [hoff]
  have hrun : Loop.run recvPass (recvFuel s.1 s.2) s = some (0, s) := Loop.run_succ_leave hpass
  rw [eventRecv, hrun]
  rfl

section

variable {cfg : RxConfig} {q : Bool} {s : EventContext × Io} {rx : Rx} {d : Dec} {look : List UInt8}

/-- **What a run of calls of `wslay_event_recv` does.** -/
theorem recvRun_trace (hr : Runs cfg q s rx d look) (n : Nat) :
    ∃ new items d' look', Trace cfg q s rx d look (recvRun s n) new items d' look' := by
  induction n with
  | zero => exact ⟨[], [], d, look, .start hr⟩
  | succ n ih =>
    obtain ⟨new, items, d', look', ht⟩ := ih
    rw [recvRun_succ]
    cases hfate : (rx.run q cfg items).fate with
    | off heard r =>
      have hoff : (recvRun s n).1.readEnabled = false := by
        rw [ht.follows.enabled, hfate]
        rfl
      rw [eventRecv_off hoff]
      exact ⟨new, items, d', look', ht⟩
    | live rx' =>
      obtain ⟨new', items', d'', look'', ht', -⟩ := eventRecv_trace (ht.runs hr hfate)
      exact ⟨_, _, _, _, ht.trans hfate ht'⟩

/-- Either reading is over, or each call asks for more and then waits. -/
theorem recvRun_waits (hr : Runs cfg q s rx d look) (n : Nat) :
    ∃ new items d' look', Trace cfg q s rx d look (recvRun s (n + 1)) new items d' look' ∧
      ∀ rx', (rx.run q cfg items).fate = .live rx' → takePiece d' look' = .wait d' look' ∧
        (recvRun s (n + 1)).2.recvs.length ≤ s.2.recvs.length - (n + 1) := by
  induction n with
  | zero =>
    rw [recvRun_succ, recvRun_zero]
    obtain ⟨new, items, d', look', ht, hends⟩ := eventRecv_trace hr
    refine ⟨new, items, d', look', ht, fun rx' hlive => ?_⟩
    rw [hlive] at hends
    obtain ⟨-, hwait, hasked⟩ := hends
    refine ⟨hwait, ?_⟩
    have hfew := ht.fewer
    rcases hasked with hnil | hlt
    · rw [hnil, List.length_nil] at hfew
      omega
    · omega
  | succ n ih =>
    obtain ⟨new, items, d', look', ht, hwaits⟩ := ih
    rw [recvRun_succ]
    cases hfate : (rx.run q cfg items).fate with
    | off heard r =>
      have hoff : (recvRun s (n + 1)).1.readEnabled = false := by
        rw [ht.follows.enabled, hfate]
        rfl
      rw [eventRecv_off hoff]
      refine ⟨new, items, d', look', ht, fun rx' hlive => ?_⟩
      rw [hfate] at hlive
      cases hlive
    | live rx₁ =>
      obtain ⟨-, hshort⟩ := hwaits rx₁ hfate
      obtain ⟨new', items', d'', look'', ht', hends⟩ := eventRecv_trace (ht.runs hr hfate)
      refine ⟨_, _, _, _, ht.trans hfate ht', fun rx' hlive => ?_⟩
      rw [Rx.run_append, Report.andThen_live hfate] at hlive
      simp only at hlive
      rw [hlive] at hends
      obtain ⟨-, hwait, hasked⟩ := hends
      refine ⟨hwait, ?_⟩
      have hfew := ht'.fewer
      rcases hasked with hnil | hlt
      · rw [hnil, List.length_nil] at hfew
        omega
      · omega

/-- **A run of enough calls reads all there is**, unless reading is over before. -/
theorem recvRun_drains (hr : Runs cfg q s rx d look) {n : Nat} (hn : s.2.recvs.length < n) :
    ∃ new items d' look', Trace cfg q s rx d look (recvRun s n) new items d' look' ∧
      ∀ rx', (rx.run q cfg items).fate = .live rx' →
        takePiece d' look' = .wait d' look' ∧ new = pendingOctets s.2.recvs := by
  obtain ⟨n, rfl⟩ : ∃ m, n = m + 1 := ⟨n - 1, by omega⟩
  obtain ⟨new, items, d', look', ht, hwaits⟩ := recvRun_waits hr n
  refine ⟨new, items, d', look', ht, fun rx' hlive => ?_⟩
  obtain ⟨hwait, hshort⟩ := hwaits rx' hlive
  have hnil : (recvRun s (n + 1)).2.recvs = [] := List.length_eq_zero_iff.1 (by omega)
  have hpend := ht.pending
  rw [hnil] at hpend
  exact ⟨hwait, by simpa [pendingOctets] using hpend.symm⟩

end

/-! ## New contexts -/

/-- The application only looks on, nothing fails, and nothing has happened yet. -/
structure Io.Calm (io : Io) : Prop where
  apps : io.apps = []
  mem : io.MemOk
  quiet : io.Quiet
  received : io.received = []
  calls : io.calls = []
  queued : io.queued = []

/-- A new context goes on like a receiver that has begun nothing. -/
theorem configured_runs (server : Bool) (callbacks : EventCallbacks) (noBuffering : Bool)
    (limit : Nat) {io : Io} (hc : io.Calm) :
    Runs (.of server callbacks noBuffering limit) true
      (configured server callbacks noBuffering limit, io) .fresh .head [] where
  listens := configured_listens server callbacks noBuffering limit io
  sound := .fresh _
  enabled := rfl
  apps := hc.apps
  mem := hc.mem
  quiet := hc.quiet
  queueable := rfl

/-- What is known of a context that has followed a report from the beginning. -/
structure Stands (callbacks : EventCallbacks) (R : Report) (s : EventContext × Io) : Prop where
  calls : s.2.calls = R.calls.filter callbacks.takes
  queued : s.2.queued = R.replies.map Reply.queued
  ctrlQueue : s.1.sendCtrlQueue = R.replies.map Reply.omsg
  enabled : s.1.readEnabled = R.fate.isLive
  heard : s.1.closeStatus.received = R.fate.heard.isSome
  code : s.1.statusCodeRecv =
    (R.fate.heard.map fun code => if code = 0 then codeNoStatusRcvd else code).getD
      codeAbnormalClosure

theorem Follows.stands {server : Bool} {callbacks : EventCallbacks} {noBuffering : Bool}
    {limit : Nat} {io : Io} (hc : io.Calm) {s : EventContext × Io} {R : Report}
    (h : Follows (configured server callbacks noBuffering limit, io) s R) :
    Stands callbacks R s where
  calls := by
    rw [h.calls, hc.calls]
    rfl
  queued := by
    rw [h.queues.1, hc.queued]
    rfl
  ctrlQueue := h.queues.2
  enabled := h.enabled.trans (Bool.and_true _)
  heard := h.heard.trans (Bool.or_false _)
  code := h.code

end Wslay
