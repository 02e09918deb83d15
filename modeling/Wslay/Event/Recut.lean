import Wslay.Event.Cuts

/-!
# Two runs over the same octets

Two contexts with the same settings are fed the same octets, which two networks have
cut in different ways.  While the reasons of all Closes are ASCII, what the one has
done at any moment is the beginning of what the other comes to, and in the end they
have done the same.

* `AsciiReasons` — the condition on the octets.
* `Rx.meets_stream` — under it, cutting is not seen.
* `same_under_any_cuts` — **the result**.
-/

namespace Wslay

/-! ## The condition -/

/-- The reasons of the Close frames among the octets are ASCII, as far as they go. -/
def AsciiReasons (octets : List UInt8) : Prop :=
  ∀ i ∈ streamItems octets, ∀ h data, i = .piece h data → h.opcode = 8 →
    ∀ b ∈ data.drop 2, b ≤ 0x7f

section

variable {q : Bool} {cfg : RxConfig} {rx rx' : Rx}

/-- A frame that begins a control message is a control frame, and of a message that
begins no text has been read. -/
theorem Rx.Sound.enter_close (hs : rx.Sound cfg) (hnone : rx.frame = none) {h : Header}
    {calls : List Call} {f : Progress} {waiting : Option Draft}
    (he : rx.enter cfg h = .ok (calls, f, waiting)) (h8 : f.draft.opcode = 8) :
    h.opcode = 8 ∧ f.draft.text = [] ∧ f.off = 0 := by
  simp only [Rx.enter, hnone] at he
  cases ha : Rx.admits cfg rx.waiting h with
  | error code => simp [ha] at he
  | ok x =>
    obtain ⟨g, rest⟩ := x
    simp only [ha, Except.ok.injEq, Prod.mk.injEq] at he
    obtain ⟨-, rfl, rfl⟩ := he
    obtain ⟨k, hb, rfl⟩ := admits_belongs ha
    obtain ⟨hopcode, -, htext⟩ := k.extend_same cfg h
    change (k.extend cfg h).opcode = 8 at h8
    change h.opcode = 8 ∧ (k.extend cfg h).text = [] ∧ 0 = 0
    rw [hopcode] at h8
    rw [htext]
    unfold belongs at hb
    cases hw : rx.waiting with
    | none =>
      simp only [hw] at hb
      split_ifs at hb
      cases hb
      exact ⟨h8, rfl, rfl⟩
    | some w =>
      simp only [hw] at hb
      split_ifs at hb
      · cases hb
        have hdata := (hs.waiting k hw).1
        rw [h8] at hdata
        cases hdata
      · cases hb
        exact ⟨h8, rfl, rfl⟩

/-- The receiver after a whole frame is between two frames again. -/
theorem Rx.Sound.next (hs : rx.Sound cfg) (hnone : rx.frame = none) {f : Frame}
    (hv : f.header.Valid) (hlive : (rx.react q cfg f.item).fate = .live rx') :
    rx'.Sound cfg ∧ rx'.frame = none := by
  have hpiece := Reaction.report_live hlive
  cases he : rx.enter cfg f.header with
  | error code =>
    rw [Rx.piece_error he] at hpiece
    rcases hpiece with h | ⟨opcode, msg, h⟩ <;> cases h
  | ok z =>
    obtain ⟨calls, g, waiting⟩ := z
    have hplace : rx.Place .head := by
      unfold Rx.Place
      rw [hnone]
      exact Or.inl rfl
    have henter : Dec.head.Enters f.header.encode f.header 0 := Or.inl ⟨rfl, rfl, rfl⟩
    obtain ⟨hheader, hoff⟩ := hplace.enter henter he
    have hend : g.off + f.payload.length = g.header.length := by
      rw [hheader, hoff, Nat.zero_add]
      rfl
    have hsound := hs.piece hv he (Nat.le_of_eq hend) 2
    refine ⟨hsound.live hpiece, ?_⟩
    rw [Rx.piece_ok he] at hpiece
    have hwhere := Progress.piece_place hpiece
    rwa [if_pos hend] at hwhere

/-- Where the reason is ASCII, cutting the piece is not seen. -/
theorem Rx.Sound.smooth (hs : rx.Sound cfg) (hnone : rx.frame = none) {h : Header}
    {data : List UInt8} (hascii : h.opcode = 8 → ∀ b ∈ data.drop 2, b ≤ 0x7f) :
    rx.Smooth unlessChunk cfg (.piece h data) := by
  intro calls f waiting he
  refine ⟨?_, Or.inl fun _ => rfl⟩
  intro h8
  obtain ⟨hopcode, htext, hoff⟩ := hs.enter_close hnone he h8
  refine ⟨htext, ?_⟩
  rw [hoff]
  exact hascii hopcode

/-- **Where the reasons are ASCII, cutting is not seen**, frame after frame. -/
theorem Rx.meets_stream (fs : List Frame) (tail : Tail) (hv : ∀ f ∈ fs, f.header.Valid)
    (hs : rx.Sound cfg) (hnone : rx.frame = none)
    (hascii : ∀ i ∈ fs.map Frame.item ++ tail.items, ∀ h data, i = .piece h data →
      h.opcode = 8 → ∀ b ∈ data.drop 2, b ≤ 0x7f) :
    rx.Meets q cfg (Rx.Smooth unlessChunk cfg) (fs.map Frame.item ++ tail.items) := by
  induction fs generalizing rx with
  | nil =>
    cases tail with
    | header rest => trivial
    | malformed => exact ⟨trivial, fun rx' _ => trivial⟩
    | payload h data =>
      rw [List.map_nil, List.nil_append, Tail.items] at hascii ⊢
      split_ifs at hascii ⊢ with hnil
      · trivial
      · refine ⟨hs.smooth hnone ?_, fun rx' _ => trivial⟩
        exact hascii _ (List.mem_singleton_self _) h data rfl
  | cons f fs ih =>
    refine ⟨hs.smooth hnone ?_, ?_⟩
    · exact hascii f.item (List.mem_cons_self ..) f.header f.payload rfl
    · intro rx' hlive
      obtain ⟨hs', hnone'⟩ := hs.next hnone (hv f (List.mem_cons_self ..)) hlive
      exact ih (fun g hg => hv g (List.mem_cons_of_mem _ hg)) hs' hnone'
        fun i hi => hascii i (List.mem_cons_of_mem _ hi)

end

/-! ## Two runs -/

theorem flatMap_unlessChunk_filter (cb : EventCallbacks) (calls : List Call) :
    (calls.filter cb.takes).flatMap unlessChunk = (calls.flatMap unlessChunk).filter cb.takes := by
  induction calls with
  | nil => rfl
  | cons c calls ih =>
    rw [List.flatMap_cons, List.filter_append, ← ih]
    by_cases hc : cb.takes c = true
    · rw [List.filter_cons_of_pos hc, List.flatMap_cons]
      cases c <;> simp [unlessChunk, hc]
    · rw [List.filter_cons_of_neg hc]
      cases c <;> simp [unlessChunk, hc]

/-- The two contexts have given the same answers, and stand alike. -/
structure SameAnswers (s s' : EventContext × Io) : Prop where
  queued : s.2.queued = s'.2.queued
  sending : s.1.sendHalf = s'.1.sendHalf
  enabled : s.1.readEnabled = s'.1.readEnabled
  closeStatus : s.1.closeStatus = s'.1.closeStatus
  statusCodeRecv : s.1.statusCodeRecv = s'.1.statusCodeRecv

/-- Replies do to the sending half what they do in any world. -/
theorem answerAll_sendHalf {c c' : EventContext} (h : c.sendHalf = c'.sendHalf) (io io' : Io)
    (rs : List Reply) :
    (answerAll (c, io) rs).1.sendHalf = (answerAll (c', io') rs).1.sendHalf := by
  induction rs generalizing c c' io io' with
  | nil => exact h
  | cons r rs ih => exact ih (withReply_sendHalf h r) _ _

/-- New contexts that have followed reports with the same replies have given the same
answers. -/
theorem Follows.sameAnswers {server : Bool} {callbacks : EventCallbacks}
    {noBuffering noBuffering' : Bool} {limit : Nat} {io io' : Io} (hc : io.Calm) (hc' : io'.Calm)
    {s s' : EventContext × Io} {R R' : Report}
    (hs : Follows (configured server callbacks noBuffering limit, io) s R)
    (hs' : Follows (configured server callbacks noBuffering' limit, io') s' R')
    (hreplies : R.replies = R'.replies) (hheard : R.fate.heard = R'.fate.heard)
    (hlive : R.fate.isLive = R'.fate.isLive) : SameAnswers s s' := by
  have hstands := hs.stands hc
  have hstands' := hs'.stands hc'
  have hsending : s.1.sendHalf = s'.1.sendHalf := by
    have hleft : s.1.sendHalf = (answerAll (_, io) R.replies).1.sendHalf :=
      congrArg Prod.fst hs.send
    have hright : s'.1.sendHalf = (answerAll (_, io') R'.replies).1.sendHalf :=
      congrArg Prod.fst hs'.send
    have hsame : (configured server callbacks noBuffering limit).sendHalf =
        (configured server callbacks noBuffering' limit).sendHalf := rfl
    rw [hleft, hright, hreplies]
    exact answerAll_sendHalf hsame io io' _
  have hreceived : s.1.closeStatus.received = s'.1.closeStatus.received := by
    rw [hstands.heard, hstands'.heard, hheard]
  refine ⟨?_, hsending, ?_, ?_, ?_⟩
  · rw [hstands.queued, hstands'.queued, hreplies]
  · rw [hstands.enabled, hstands'.enabled, hlive]
  · simp only [EventContext.sendHalf, Prod.mk.injEq] at hsending
    obtain ⟨-, hqueued, hsent, -⟩ := hsending
    cases hcs : s.1.closeStatus
    cases hcs' : s'.1.closeStatus
    simp_all
  · rw [hstands.code, hstands'.code, hheard]

/-- **Where the octets are cut does not matter.**  As long as the reasons of the Closes
are ASCII: what one context has done at any moment is a front of what another one comes
to that is fed the same octets, and when both have used them up they have done the same. -/
theorem same_under_any_cuts (server : Bool) (callbacks : EventCallbacks) (noBuffering : Bool)
    (limit : Nat) {io io' : Io} (hc : io.Calm) (hc' : io'.Calm)
    (hsame : pendingOctets io.recvs = pendingOctets io'.recvs)
    (hascii : AsciiReasons (pendingOctets io.recvs)) (n : Nat) {n' : Nat}
    (hn' : io'.recvs.length < n') :
    let s := recvRun (configured server callbacks noBuffering limit, io) n
    let s' := recvRun (configured server callbacks noBuffering limit, io') n'
    s.2.calls.flatMap unlessChunk <+: s'.2.calls.flatMap unlessChunk ∧
      s.2.queued <+: s'.2.queued ∧ (io.recvs.length < n →
        s.2.calls.flatMap unlessChunk = s'.2.calls.flatMap unlessChunk ∧
          SameAnswers s s') := by
  intro s s'
  have hg : ∀ x y, unlessChunk (.frameRecvChunk (x ++ y)) =
      unlessChunk (.frameRecvChunk x) ++ unlessChunk (.frameRecvChunk y) := fun _ _ => rfl
  have hruns := configured_runs server callbacks noBuffering limit hc
  have hruns' := configured_runs server callbacks noBuffering limit hc'
  have hmeets : Rx.fresh.Meets true (.of server callbacks noBuffering limit)
      (Rx.Smooth unlessChunk _) (Dec.head.items ([] ++ pendingOctets io.recvs)) :=
    Rx.meets_stream _ _ (decodeStream_valid _) hruns.sound rfl hascii
  -- the finished run has done what the octets come to
  obtain ⟨new', items', d₁, look₁, more₁, ht', hall', hdone'⟩ := recvRun_finishes hruns' hn'
  have hoctets' : new' ++ more₁ = pendingOctets io.recvs := hall'.trans hsame.symm
  have halike' := ht'.more hg hruns'.listens.place more₁ (by rw [hoctets']; exact hmeets)
  rw [hoctets', hdone'] at halike'
  have hstands' : Stands callbacks _ s' := ht'.follows.stands hc'
  -- the other run has done a front of it
  obtain ⟨new, items, d, look, ht⟩ := recvRun_trace hruns n
  have hoctets : new ++ pendingOctets s.2.recvs = pendingOctets io.recvs := ht.pending.symm
  have halike := ht.more hg hruns.listens.place (pendingOctets s.2.recvs)
    (by rw [hoctets]; exact hmeets)
  rw [hoctets] at halike
  have hstands : Stands callbacks _ s := ht.follows.stands hc
  have hboth := halike.symm.trans halike'
  obtain ⟨hcalls, hreplies⟩ := Report.prefix_andThen (Rx.fresh.run true _ items)
    fun rx => rx.run true _ (d.items (look ++ pendingOctets s.2.recvs))
  refine ⟨?_, ?_, ?_⟩
  · rw [hstands.calls, hstands'.calls, flatMap_unlessChunk_filter, flatMap_unlessChunk_filter,
      ← hboth.calls]
    exact (hcalls.flatMap unlessChunk).filter _
  · rw [hstands.queued, hstands'.queued, ← hboth.replies]
    exact hreplies.map _
  · intro hn
    obtain ⟨new₂, items₂, d₂, look₂, more₂, ht₂, hall₂, hdone₂⟩ := recvRun_finishes hruns hn
    have hoctets₂ : new₂ ++ more₂ = pendingOctets io.recvs := hall₂
    have halike₂ := ht₂.more hg hruns.listens.place more₂ (by rw [hoctets₂]; exact hmeets)
    rw [hoctets₂, hdone₂] at halike₂
    have hend := halike₂.symm.trans halike'
    refine ⟨?_, ht₂.follows.sameAnswers hc hc' ht'.follows hend.replies ?_ ?_⟩
    · rw [(ht₂.follows.stands hc).calls, hstands'.calls, flatMap_unlessChunk_filter,
        flatMap_unlessChunk_filter, hend.calls]
    · rw [hend.fate]
    · rw [hend.fate]

/-! ## A farewell -/

/-- Whole frames. -/
theorem AsciiReasons.of_frames {fs : List Frame} (hv : ∀ f ∈ fs, f.header.Valid)
    (hascii : ∀ f ∈ fs, f.opcode = 8 → ∀ b ∈ f.payload.drop 2, b ≤ 0x7f) :
    AsciiReasons (fs.flatMap Frame.encode) := by
  intro i hi h data hpiece hopcode
  have hitems := streamItems_flatMap hv []
  rw [List.append_nil] at hitems
  rw [hitems] at hi
  rcases List.mem_append.1 hi with hi | hi
  · obtain ⟨f, hf, rfl⟩ := List.mem_map.1 hi
    cases hpiece
    exact hascii f hf hopcode
  · rw [streamItems, decodeStream_more rfl] at hi
    cases hi

/-- A Ping, a text and a Close. -/
def farewell : List Frame :=
  [⟨true, 0, 9, none, [7]⟩, ⟨true, 0, 1, none, [0x68, 0xc3, 0xa9]⟩,
    ⟨true, 0, 8, none, [0x03, 0xe8, 0x6f, 0x6b]⟩]

/-- Its octets, one by one, and after each of them the network is slow. -/
def dripping : List RecvResult :=
  (farewell.flatMap Frame.encode).flatMap fun b =>
    [.data [b], .fail (some Err.wouldblock.code)]

/-- At once, and octet by octet. -/
theorem same_under_any_cuts_farewell :
    let s := recvRun (configured false ⟨true, true, true, true⟩ false 100,
      { recvs := [.data (farewell.flatMap Frame.encode)] }) 2
    let s' := recvRun (configured false ⟨true, true, true, true⟩ false 100,
      { recvs := dripping }) 40
    s.2.calls.flatMap unlessChunk = s'.2.calls.flatMap unlessChunk ∧ SameAnswers s s' := by
  have hvalid : ∀ f ∈ farewell, f.header.Valid := by decide
  have hcalm : Io.Calm { recvs := [.data (farewell.flatMap Frame.encode)] } :=
    ⟨rfl, fun h => (by cases h), ⟨Or.inl rfl, fun e he => (by simp at he)⟩, rfl, rfl, rfl⟩
  have hcalm' : Io.Calm { recvs := dripping } := by
    refine ⟨rfl, fun h => (by cases h), ⟨Or.inl rfl, ?_⟩, rfl, rfl, rfl⟩
    intro e he
    obtain ⟨b, -, he⟩ := List.mem_flatMap.1 he
    simp only [List.mem_cons, reduceCtorEq, List.not_mem_nil, or_false, false_or,
      RecvResult.fail.injEq, Option.some.injEq] at he
    exact Or.inr he
  have hpending : pendingOctets [.data (farewell.flatMap Frame.encode)] =
      farewell.flatMap Frame.encode := List.append_nil _
  have hascii : AsciiReasons (pendingOctets [.data (farewell.flatMap Frame.encode)]) := by
    rw [hpending]
    exact AsciiReasons.of_frames hvalid (by decide +kernel)
  exact (same_under_any_cuts false ⟨true, true, true, true⟩ false 100 hcalm hcalm' (by decide)
    hascii 2 (by decide)).2.2 (by decide)

end Wslay
