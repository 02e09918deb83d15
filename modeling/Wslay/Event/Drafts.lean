import Wslay.Event.Report

/-!
# What the receiver keeps of a message

The length of a draft is the number of octets kept of it and those of the frame
in progress that have not come yet, up to the width of the counter.  Of a control
message nothing else is kept, so it has as many octets as its only frame.

* `Rx.enter` — the frame that a piece belongs to.
* `Rx.Sound` — the invariant.
* `Rx.Sound.piece` — a piece keeps it.
-/

namespace Wslay

/-! ## The frame that a piece belongs to -/

/-- The frame that a piece with header `h` belongs to, the message that waits
meanwhile, and the call that announces the frame if it begins here; or the status
code that it is rejected with. -/
def Rx.enter (cfg : RxConfig) (rx : Rx) (h : Header) :
    Except Nat (List Call × Progress × Option Draft) :=
  match rx.frame with
  | some f => .ok ([], f, rx.waiting)
  | none =>
    match Rx.admits cfg rx.waiting h with
    | .error code => .error code
    | .ok (f, waiting) => .ok ([h.startCall], f, waiting)

theorem Rx.piece_error {cfg : RxConfig} {rx : Rx} {h : Header} {code : Nat}
    (he : rx.enter cfg h = .error code) (skip : Nat) (data : List UInt8) :
    rx.piece skip cfg h data = ⟨[], .reject code⟩ := by
  unfold Rx.enter at he
  unfold Rx.piece
  cases hf : rx.frame with
  | some f => simp [hf] at he
  | none =>
    simp only [hf] at he
    cases ha : Rx.admits cfg rx.waiting h with
    | error code' =>
      rw [ha] at he
      cases he
      rfl
    | ok x => simp [ha] at he

theorem Rx.piece_ok {cfg : RxConfig} {rx : Rx} {h : Header} {calls : List Call} {f : Progress}
    {waiting : Option Draft} (he : rx.enter cfg h = .ok (calls, f, waiting)) (skip : Nat)
    (data : List UInt8) :
    rx.piece skip cfg h data =
      ⟨calls ++ (f.piece skip cfg waiting data).calls, (f.piece skip cfg waiting data).verdict⟩ := by
  unfold Rx.enter at he
  unfold Rx.piece
  cases hf : rx.frame with
  | some g =>
    simp only [hf] at he
    cases he
    rfl
  | none =>
    simp only [hf] at he
    cases ha : Rx.admits cfg rx.waiting h with
    | error code => simp [ha] at he
    | ok x =>
      rw [ha] at he
      cases he
      rfl

/-- What a piece comes to, once the frame is known. -/
theorem Progress.piece_cases (skip : Nat) (cfg : RxConfig) (f : Progress) (waiting : Option Draft)
    (data : List UInt8) :
    f.draft.scan skip data = none ∧
        f.piece skip cfg waiting data = ⟨[], .reject codeInvalidFramePayloadData⟩ ∨
      ∃ text, f.draft.scan skip data = some text ∧
        (f.off + data.length = f.header.length ∧ f.piece skip cfg waiting data =
            ⟨.frameRecvChunk data :: ((f.advance cfg data text).finish cfg waiting).calls,
              ((f.advance cfg data text).finish cfg waiting).verdict⟩ ∨
          f.off + data.length ≠ f.header.length ∧ f.piece skip cfg waiting data =
            ⟨[.frameRecvChunk data], .more ⟨waiting, some (f.advance cfg data text)⟩⟩) := by
  unfold Progress.piece
  cases hscan : f.draft.scan skip data with
  | none => exact Or.inl ⟨rfl, rfl⟩
  | some text =>
    refine Or.inr ⟨text, rfl, ?_⟩
    by_cases hend : f.off + data.length = f.header.length
    · exact Or.inl ⟨hend, if_pos hend⟩
    · exact Or.inr ⟨hend, if_neg hend⟩

/-- What the end of a frame comes to. -/
theorem Progress.finish_cases (cfg : RxConfig) (f : Progress) (waiting : Option Draft) :
    f.finish cfg waiting = ⟨[], .reject codeInvalidFramePayloadData⟩ ∨
      f.header.fin = true ∧
        f.finish cfg waiting = ⟨[.frameRecvEnd], f.draft.verdict cfg waiting⟩ ∨
      f.header.fin = false ∧ f.finish cfg waiting = ⟨[.frameRecvEnd], .more ⟨some f.draft, none⟩⟩ := by
  unfold Progress.finish
  split_ifs with hbad hfin
  · exact Or.inl rfl
  · exact Or.inr (Or.inl ⟨hfin, rfl⟩)
  · exact Or.inr (Or.inr ⟨by simpa using hfin, rfl⟩)

/-! ## The invariant -/

/-- The length of the draft counts the octets kept and the `missing` ones. -/
def Draft.Counts (cfg : RxConfig) (k : Draft) (missing : Nat) : Prop :=
  if cfg.buffers k.opcode then k.length = (k.body.length + missing) % 2 ^ 64
  else k.length = 0 ∧ k.body = []

/-- The frame in progress, and the draft it goes into. -/
structure Progress.Sound (cfg : RxConfig) (f : Progress) : Prop where
  valid : f.header.Valid
  le : f.off ≤ f.header.length
  kind : 8 ≤ f.header.opcode.val ↔ 8 ≤ f.draft.opcode.val
  known : isData f.draft.opcode = true ∨ isKnownCtrl f.draft.opcode = true
  counts : f.draft.Counts cfg (f.header.length - f.off)
  ctrl : 8 ≤ f.draft.opcode.val → f.draft.body.length = f.off

/-- The state of the receiver is sound. -/
structure Rx.Sound (cfg : RxConfig) (rx : Rx) : Prop where
  waiting : ∀ k, rx.waiting = some k → isData k.opcode = true ∧ k.Counts cfg 0
  frame : ∀ f, rx.frame = some f → f.Sound cfg
  alone : ∀ f, rx.frame = some f → rx.waiting ≠ none → 8 ≤ f.draft.opcode.val

theorem Rx.Sound.fresh (cfg : RxConfig) : Rx.Sound cfg .fresh := by
  constructor
  · intro k hk
    cases hk
  · intro f hf
    cases hf
  · intro f hf
    cases hf

theorem RxConfig.buffers_kind (cfg : RxConfig) {a b : Fin 16} (h : 8 ≤ a.val ↔ 8 ≤ b.val) :
    cfg.buffers a = cfg.buffers b := by
  unfold RxConfig.buffers
  rw [decide_eq_decide.2 h]

theorem RxConfig.buffers_ctrl (cfg : RxConfig) {a : Fin 16} (h : 8 ≤ a.val) :
    cfg.buffers a = true := by
  unfold RxConfig.buffers
  rw [decide_eq_true h, Bool.or_true]

theorem Draft.Counts.start (cfg : RxConfig) (opcode : Fin 16) :
    (Draft.start opcode).Counts cfg 0 := by
  unfold Draft.Counts Draft.start
  split_ifs
  · rfl
  · exact ⟨rfl, rfl⟩

/-- A frame that is admitted is sound. -/
theorem Rx.Sound.admits {cfg : RxConfig} {waiting rest : Option Draft} {h : Header} {f : Progress}
    (hw : ∀ k, waiting = some k → isData k.opcode = true ∧ k.Counts cfg 0) (hv : h.Valid)
    (ha : Rx.admits cfg waiting h = .ok (f, rest)) :
    f.Sound cfg ∧ (∀ k, rest = some k → isData k.opcode = true ∧ k.Counts cfg 0) ∧
      (rest ≠ none → 8 ≤ f.draft.opcode.val) := by
  unfold Rx.admits at ha
  split_ifs at ha with hbits
  cases hb : belongs waiting h.opcode with
  | none => simp [hb] at ha
  | some x =>
    obtain ⟨k, rest'⟩ := x
    simp only [hb] at ha
    split_ifs at ha with hbig
    cases ha
    -- the draft before the frame
    obtain ⟨hcounts, hkind, hknown, hempty, hrest, halone⟩ : k.Counts cfg 0 ∧
        (8 ≤ h.opcode.val ↔ 8 ≤ k.opcode.val) ∧
        (isData k.opcode = true ∨ isKnownCtrl k.opcode = true) ∧
        (8 ≤ k.opcode.val → k.body = []) ∧
        (∀ k, rest = some k → isData k.opcode = true ∧ k.Counts cfg 0) ∧
        (rest ≠ none → 8 ≤ k.opcode.val) := by
      unfold belongs at hb
      cases hwait : waiting with
      | none =>
        simp only [hwait] at hb
        split_ifs at hb with hknown
        cases hb
        refine ⟨.start cfg _, Iff.rfl, ?_, fun _ => rfl, fun _ h => (by cases h), fun h => absurd rfl h⟩
        simpa [Draft.start] using hknown
      | some k' =>
        simp only [hwait] at hb
        obtain ⟨hdata, hc⟩ := hw k' hwait
        split_ifs at hb with h0 hctrl
        · cases hb
          have hlow := isData_not_ctrl hdata
          refine ⟨hc, ?_, Or.inl hdata, fun h => absurd h hlow, fun _ h => (by cases h),
            fun h => absurd rfl h⟩
          rw [h0]
          exact ⟨fun h => absurd h (by decide), fun h => absurd h hlow⟩
        · cases hb
          refine ⟨.start cfg _, Iff.rfl, Or.inr hctrl, fun _ => rfl, ?_,
            fun _ => isKnownCtrl_ctrl hctrl⟩
          rintro k ⟨⟩
          exact ⟨hdata, hc⟩
    have hbuf := cfg.buffers_kind hkind
    have hop : (k.extend cfg h).opcode = k.opcode := by
      unfold Draft.extend
      split_ifs <;> rfl
    have hbody : (k.extend cfg h).body = k.body := by
      unfold Draft.extend
      split_ifs <;> rfl
    refine ⟨⟨hv, Nat.zero_le _, ?_, ?_, ?_, ?_⟩, hrest, fun hne => ?_⟩
    · change _ ↔ 8 ≤ (k.extend cfg h).opcode.val
      rw [hop]
      exact hkind
    · change isData (k.extend cfg h).opcode = true ∨ isKnownCtrl (k.extend cfg h).opcode = true
      rw [hop]
      exact hknown
    · change (k.extend cfg h).Counts cfg (h.length - 0)
      unfold Draft.Counts at hcounts ⊢
      rw [hop, hbody]
      by_cases hkeep : cfg.buffers k.opcode = true
      · rw [if_pos hkeep] at hcounts ⊢
        rw [Draft.extend, if_pos (hbuf.trans hkeep)]
        change (k.length + h.length) % 2 ^ 64 = _
        rw [hcounts, Nat.add_zero, Nat.sub_zero, Nat.mod_add_mod]
      · rw [if_neg hkeep] at hcounts ⊢
        rw [Draft.extend, if_neg (by rwa [hbuf])]
        exact hcounts
    · intro hc
      change (k.extend cfg h).body.length = 0
      change 8 ≤ (k.extend cfg h).opcode.val at hc
      rw [hop] at hc
      rw [hbody, hempty hc]
      rfl
    · change 8 ≤ (k.extend cfg h).opcode.val
      rw [hop]
      exact halone hne

/-- A frame that is admitted goes on with the message it belongs to. -/
theorem admits_belongs {cfg : RxConfig} {waiting rest : Option Draft} {h : Header} {f : Progress}
    (ha : Rx.admits cfg waiting h = .ok (f, rest)) :
    ∃ k, belongs waiting h.opcode = some (k, rest) ∧ f = ⟨h, 0, k.extend cfg h⟩ := by
  unfold Rx.admits at ha
  split_ifs at ha
  cases hb : belongs waiting h.opcode with
  | none => simp [hb] at ha
  | some x =>
    obtain ⟨k, w⟩ := x
    simp only [hb] at ha
    split_ifs at ha
    cases ha
    exact ⟨k, rfl, rfl⟩

/-- One more frame adds to the length only. -/
theorem Draft.extend_same (cfg : RxConfig) (k : Draft) (h : Header) :
    (k.extend cfg h).opcode = k.opcode ∧ (k.extend cfg h).body = k.body ∧
      (k.extend cfg h).text = k.text := by
  unfold Draft.extend
  split_ifs <;> exact ⟨rfl, rfl, rfl⟩

/-- The frame that a piece belongs to is sound. -/
theorem Rx.Sound.enter {cfg : RxConfig} {rx : Rx} (hs : rx.Sound cfg) {h : Header} (hv : h.Valid)
    {calls : List Call} {f : Progress} {waiting : Option Draft}
    (he : rx.enter cfg h = .ok (calls, f, waiting)) :
    Rx.Sound cfg ⟨waiting, some f⟩ := by
  unfold Rx.enter at he
  cases hf : rx.frame with
  | some g =>
    simp only [hf] at he
    cases he
    refine ⟨hs.waiting, ?_, ?_⟩
    · rintro g' ⟨⟩
      exact hs.frame _ hf
    · rintro g' ⟨⟩
      exact hs.alone _ hf
  | none =>
    simp only [hf] at he
    cases ha : Rx.admits cfg rx.waiting h with
    | error code => simp [ha] at he
    | ok x =>
      rw [ha] at he
      cases he
      obtain ⟨h1, h2, h3⟩ := Rx.Sound.admits hs.waiting hv ha
      refine ⟨h2, ?_, ?_⟩
      · rintro g' ⟨⟩
        exact h1
      · rintro g' ⟨⟩
        exact h3

/-! ## A piece keeps it -/

/-- More of the payload has come. -/
theorem Progress.Sound.advance {cfg : RxConfig} {f : Progress} (hs : f.Sound cfg)
    {data : List UInt8} (hle : f.off + data.length ≤ f.header.length) (text : List Utf8.Range) :
    (f.advance cfg data text).Sound cfg where
  valid := hs.valid
  le := hle
  kind := hs.kind
  known := hs.known
  counts := by
    have hcounts := hs.counts
    have hbuf := cfg.buffers_kind hs.kind
    change Draft.Counts cfg _ (f.header.length - (f.off + data.length))
    unfold Draft.Counts at hcounts ⊢
    change if cfg.buffers f.draft.opcode = true then _ else _
    by_cases hkeep : cfg.buffers f.draft.opcode = true
    · rw [if_pos hkeep] at hcounts ⊢
      simp only [Progress.advance, if_pos (hbuf.trans hkeep), List.length_append]
      rw [hcounts]
      congr 1
      omega
    · rw [if_neg hkeep] at hcounts ⊢
      simp only [Progress.advance, hbuf, if_neg hkeep]
      exact hcounts
  ctrl := by
    intro hc
    have hbuf := (cfg.buffers_kind hs.kind).trans (cfg.buffers_ctrl hc)
    have hctrl := hs.ctrl hc
    simp only [Progress.advance, if_pos hbuf, List.length_append, hctrl]

/-- A control frame is complete in itself. -/
theorem Progress.Sound.fin {cfg : RxConfig} {f : Progress} (hs : f.Sound cfg)
    (hc : 8 ≤ f.draft.opcode.val) : f.header.fin = true ∧ f.header.length ≤ 125 := by
  have h8 : f.header.isCtrl = true := by
    rw [Header.isCtrl, decide_eq_true_eq]
    exact hs.kind.2 hc
  exact hs.valid.2 h8

/-- The octets of a complete control message. -/
theorem Draft.Counts.gather {cfg : RxConfig} {k : Draft} (hk : k.Counts cfg 0)
    (hsmall : k.body.length < 2 ^ 64) : k.gather = some k.body := by
  unfold Draft.Counts at hk
  unfold Draft.gather
  by_cases hkeep : cfg.buffers k.opcode = true
  · rw [if_pos hkeep, Nat.add_zero, Nat.mod_eq_of_lt hsmall] at hk
    by_cases h0 : k.length = 0
    · rw [if_pos h0, List.length_eq_zero_iff.1 (hk.symm.trans h0)]
    · rw [if_neg h0, if_pos hk.symm]
  · rw [if_neg hkeep] at hk
    rw [if_pos hk.1, hk.2]

/-- What a verdict says of the messages it completes. -/
theorem Draft.verdict_fits {cfg : RxConfig} {k : Draft} {waiting : Option Draft} {opcode : Fin 16}
    {msg : List UInt8} {rx : Rx} (hlen : 8 ≤ k.opcode.val → k.body.length ≤ 125)
    (h : k.verdict cfg waiting = .done opcode msg rx) :
    8 ≤ opcode.val → msg.length ≤ 125 := by
  intro hc
  unfold Draft.verdict at h
  split_ifs at h
  · cases hg : k.gather with
    | none => simp [hg] at h
    | some m =>
      simp only [hg] at h
      split_ifs at h
      cases h
      unfold Draft.gather at hg
      split_ifs at hg <;> cases hg
      · exact Nat.zero_le _
      · exact hlen hc
  · cases h
    exact Nat.zero_le _

/-- What a sound verdict leaves behind. -/
def Verdict.Sound (cfg : RxConfig) : Verdict → Prop
  | .more rx => rx.Sound cfg
  | .done opcode msg rx => rx.Sound cfg ∧ rx.frame = none ∧ (8 ≤ opcode.val → msg.length ≤ 125)
  | _ => True

theorem Progress.Sound.finish {cfg : RxConfig} {f : Progress} {waiting : Option Draft}
    (hs : Rx.Sound cfg ⟨waiting, some f⟩) (hend : f.off = f.header.length) :
    (f.finish cfg waiting).verdict.Sound cfg := by
  have hf := hs.frame f rfl
  rcases f.finish_cases cfg waiting with h | ⟨-, h⟩ | ⟨hfin, h⟩ <;> rw [h]
  · trivial
  · change (f.draft.verdict cfg waiting).Sound cfg
    cases hv : f.draft.verdict cfg waiting with
    | more rx => exact absurd hv Draft.verdict_more
    | reject code => trivial
    | overflow => trivial
    | done opcode msg rx =>
      obtain ⟨-, rfl⟩ := Draft.verdict_done hv
      refine ⟨⟨hs.waiting, ?_, ?_⟩, rfl, Draft.verdict_fits (fun hc => ?_) hv⟩
      · rintro g ⟨⟩
      · rintro g ⟨⟩
      · rw [hf.ctrl hc, hend]
        exact (hf.fin hc).2
  · -- the message goes on with its next frame
    have hlow : ¬ 8 ≤ f.draft.opcode.val := fun hc => by
      rw [(hf.fin hc).1] at hfin
      cases hfin
    refine ⟨?_, ?_, ?_⟩
    · rintro k ⟨⟩
      refine ⟨hf.known.resolve_right fun hk => hlow (isKnownCtrl_ctrl hk), ?_⟩
      have hcounts := hf.counts
      rwa [hend, Nat.sub_self] at hcounts
    · rintro g ⟨⟩
    · rintro g ⟨⟩

/-- **A piece keeps the receiver sound.** -/
theorem Rx.Sound.piece {cfg : RxConfig} {rx : Rx} (hs : rx.Sound cfg) {h : Header} (hv : h.Valid)
    {data : List UInt8} {calls : List Call} {f : Progress} {waiting : Option Draft}
    (he : rx.enter cfg h = .ok (calls, f, waiting)) (hle : f.off + data.length ≤ f.header.length)
    (skip : Nat) : (rx.piece skip cfg h data).verdict.Sound cfg := by
  have hs' := hs.enter hv he
  rw [Rx.piece_ok he]
  change (f.piece skip cfg waiting data).verdict.Sound cfg
  have hnext : ∀ text, Rx.Sound cfg ⟨waiting, some (f.advance cfg data text)⟩ := by
    intro text
    refine ⟨hs'.waiting, ?_, ?_⟩
    · rintro g ⟨⟩
      exact (hs'.frame f rfl).advance hle text
    · rintro g ⟨⟩
      exact hs'.alone f rfl
  rcases f.piece_cases skip cfg waiting data with ⟨-, h⟩ | ⟨text, -, ⟨hend, h⟩ | ⟨-, h⟩⟩ <;> rw [h]
  · trivial
  · exact Progress.Sound.finish (hnext text) hend
  · exact hnext text

end Wslay
