import Wslay.Event.Legal

/-!
# The limit of `wslay_event_config_set_max_recv_msg_length`

The first frame with which a message becomes longer than the limit is answered with
a Close, before anybody hears of it and before any of it is stored.

* `Rx.react_delivering` — what the receiver does without `on_msg_recv_callback`.
* `Rx.run_bounded` — no message that is delivered is longer than the limit.
* `recvPass_tooBig` — the pass that rejects a frame stores nothing.
* `limit_exact` — **the limit is exact**.
-/

namespace Wslay

open Utf8 (read WellFormed)
open Loop (Step)
open Octets (beBytes length_beBytes beVal_lt beVal_beBytes)

/-! ## Without a callback for messages -/

/-- The same settings, with a callback for messages. -/
def RxConfig.delivering (cfg : RxConfig) : RxConfig := { cfg with delivers := true }

/-- Of the calls all but the deliveries are seen. -/
def Call.framing (c : Call) : List (Call ⊕ UInt8) := if c.isMsg then [] else seen c

theorem framing_append (x y : List UInt8) : (Call.frameRecvChunk (x ++ y)).framing =
    (Call.frameRecvChunk x).framing ++ (Call.frameRecvChunk y).framing := seen_append x y

/-- The first verdict is the second, but for what is delivered. -/
def Verdict.Withholds (v v' : Verdict) : Prop :=
  v = v' ∨ ∃ opcode rx, v = .done opcode [] rx ∧ opcode ≠ 8 ∧ opcode ≠ 9 ∧
    (v' = .overflow ∨ ∃ msg, v' = .done opcode msg rx)

theorem Draft.verdict_delivering (cfg : RxConfig) (k : Draft) (waiting : Option Draft) :
    (k.verdict cfg waiting).Withholds (k.verdict cfg.delivering waiting) := by
  cases hd : cfg.delivers with
  | true =>
    have hsame : cfg.delivering = cfg := by
      rw [RxConfig.delivering, ← hd]
    rw [hsame]
    exact Or.inl rfl
  | false =>
    by_cases hctrl : k.opcode = 8 ∨ k.opcode = 9
    · have hboth : k.verdict cfg waiting = k.verdict cfg.delivering waiting := by
        unfold Draft.verdict
        rcases hctrl with h | h <;> simp [h]
      exact Or.inl hboth
    · rw [not_or] at hctrl
      refine Or.inr ⟨k.opcode, ⟨waiting, none⟩, ?_, hctrl.1, hctrl.2, ?_⟩
      · rw [Draft.verdict, hd, if_neg (by simp [hctrl.1, hctrl.2])]
      · rw [Draft.verdict, RxConfig.delivering, Bool.true_or, Bool.true_or, if_pos rfl]
        cases k.gather with
        | none => exact Or.inl rfl
        | some msg => exact Or.inr ⟨msg, if_neg fun h => hctrl.1 h.1⟩

section

variable {cfg : RxConfig} {q : Bool}

theorem Progress.piece_delivering (cfg : RxConfig) (skip : Nat) (f : Progress) (waiting : Option Draft)
    (data : List UInt8) :
    (f.piece skip cfg waiting data).calls = (f.piece skip cfg.delivering waiting data).calls ∧
      (f.piece skip cfg waiting data).verdict.Withholds
        (f.piece skip cfg.delivering waiting data).verdict := by
  unfold Progress.piece
  cases f.draft.scan skip data with
  | none => exact ⟨rfl, Or.inl rfl⟩
  | some text =>
    have hadv : f.advance cfg.delivering data text = f.advance cfg data text := rfl
    simp only [hadv]
    split_ifs
    · unfold Progress.finish
      split_ifs
      · exact ⟨rfl, Or.inl rfl⟩
      · exact ⟨rfl, Draft.verdict_delivering cfg _ waiting⟩
      · exact ⟨rfl, Or.inl rfl⟩
    · exact ⟨rfl, Or.inl rfl⟩

theorem Rx.piece_delivering (cfg : RxConfig) (skip : Nat) (rx : Rx) (h : Header) (data : List UInt8) :
    (rx.piece skip cfg h data).calls = (rx.piece skip cfg.delivering h data).calls ∧
      (rx.piece skip cfg h data).verdict.Withholds
        (rx.piece skip cfg.delivering h data).verdict := by
  have henter : rx.enter cfg.delivering h = rx.enter cfg h := rfl
  cases he : rx.enter cfg h with
  | error code =>
    rw [Rx.piece_error he, Rx.piece_error (henter.trans he)]
    exact ⟨rfl, Or.inl rfl⟩
  | ok x =>
    obtain ⟨calls, f, waiting⟩ := x
    obtain ⟨hcalls, hverdict⟩ := f.piece_delivering cfg skip waiting data
    rw [Rx.piece_ok he, Rx.piece_ok (henter.trans he)]
    exact ⟨congrArg (calls ++ ·) hcalls, hverdict⟩

/-- **Without a callback for messages the receiver does the same**, as long as the
messages can be put together. -/
theorem Rx.react_delivering {α : Type} {g : Call → List α}
    (hsilent : ∀ rsv opcode msg code, g (.msgRecv rsv opcode msg code) = []) (rx : Rx) (i : Item) :
    Report.Alike g (rx.react q cfg i) (rx.react q cfg.delivering i) ∨
      (rx.react q cfg.delivering i).fate = .off none Err.nomem.code := by
  cases i with
  | malformed => exact Or.inl (.refl g _)
  | piece h data =>
    obtain ⟨hcalls, hverdict⟩ := rx.piece_delivering cfg 2 h data
    change Report.Alike g ((rx.piece 2 cfg h data).report q)
      ((rx.piece 2 cfg.delivering h data).report q) ∨
        ((rx.piece 2 cfg.delivering h data).report q).fate = .off none Err.nomem.code
    rcases hverdict with hsame | ⟨opcode, rx', hv, h8, h9, hv' | ⟨msg, hv'⟩⟩
    · exact Or.inl (Reaction.report_alike hsame (by rw [hcalls]))
    · refine Or.inr ?_
      unfold Reaction.report
      rw [hv']
    · refine Or.inl ?_
      unfold Reaction.report
      rw [hv, hv']
      simp only [if_neg h8, h9, false_and, if_false]
      refine ⟨?_, rfl, rfl⟩
      simp only [List.flatMap_append, hcalls, List.flatMap_singleton, msgCall, hsilent]

end

namespace Assembly

section

variable {cfg : RxConfig} {q : Bool} {a : Assembly} {f : Frame} {fs : List Frame}

theorem report_fate (q : Bool) (cfg : RxConfig) (a : Assembly) (f : Frame) :
    (a.report q cfg f).fate = .live ((a.after f).rx cfg) ∨
      (a.report q cfg f).fate = .off none (if q then 0 else 1) := by
  unfold report
  cases q <;> split_ifs <;> simp_all [giveUp]

/-- Whole frames, to who does not look at the messages. -/
theorem framing_front {α : Type} {g : Call → List α}
    (hsilent : ∀ rsv opcode msg code, g (.msgRecv rsv opcode msg code) = []) (ha : a.Ok)
    (hv : ∀ f ∈ fs, f.header.Valid) (h8 : ∀ f ∈ fs, f.opcode ≠ 8)
    (hP : a.Meets q cfg (fun a f => (a.accepts cfg.server f = true → a.lengthOf cfg f < 2 ^ 64) ∧
      (a.Ok → (a.rx cfg).Smooth g cfg f.item)) fs) :
    (a.rx cfg).Meets q cfg (Rx.Smooth g cfg) (fs.map Frame.item) ∧
      Report.Alike g ((a.rx cfg).run q cfg (fs.map Frame.item)) (a.run q cfg fs) := by
  induction fs generalizing a with
  | nil => exact ⟨trivial, .refl g _⟩
  | cons f fs ih =>
    obtain ⟨⟨hsmall, hnow⟩, hrest⟩ := hP
    have hdel : cfg.delivering.delivers = true := rfl
    have hreact : (a.rx cfg).react q cfg.delivering f.item = a.report q cfg f :=
      react hdel ha (hv f (List.mem_cons_self ..)) (h8 f (List.mem_cons_self ..)) hsmall
    have halike : Report.Alike g ((a.rx cfg).react q cfg f.item) (a.report q cfg f) := by
      rw [← hreact]
      refine (Rx.react_delivering hsilent _ _).resolve_right fun hoff => ?_
      rw [hreact] at hoff
      rcases a.report_fate q cfg f with h | h <;> rw [h] at hoff
      · cases hoff
      · cases q <;> cases hoff
    have hstep : ∀ rx', (a.report q cfg f).fate = .live rx' →
        rx'.Meets q cfg (Rx.Smooth g cfg) (fs.map Frame.item) ∧
          Report.Alike g (rx'.run q cfg (fs.map Frame.item)) ((a.after f).run q cfg fs) := by
      intro rx' hlive
      obtain ⟨-, -, -, rfl⟩ := report_live hlive
      exact ih (report_ok ha hlive) (fun g hg => hv g (List.mem_cons_of_mem _ hg))
        (fun g hg => h8 g (List.mem_cons_of_mem _ hg)) (hrest _ hlive)
    refine ⟨⟨hnow ha, fun rx' hlive => ?_⟩, ?_⟩
    · rw [halike.fate] at hlive
      exact (hstep rx' hlive).1
    · exact halike.andThen fun rx' hlive => (hstep rx' hlive).2

/-- Legal frames that fit can be cut without anybody seeing it. -/
theorem All.smooth {α : Type} (g : Call → List α) (hlimit : cfg.limit < 2 ^ 64)
    (hlegal : a.All (Legal cfg.server) fs) (hfits : a.All (Fits cfg) fs)
    (h8 : ∀ f ∈ fs, f.opcode ≠ 8) :
    a.Meets q cfg (fun a f => (a.accepts cfg.server f = true → a.lengthOf cfg f < 2 ^ 64) ∧
      (a.Ok → (a.rx cfg).Smooth g cfg f.item)) fs := by
  induction fs generalizing a with
  | nil => trivial
  | cons f fs ih =>
    have hsmall : a.accepts cfg.server f = true → a.lengthOf cfg f < 2 ^ 64 :=
      fun _ => lt_of_le_of_lt hfits.1 hlimit
    refine ⟨⟨hsmall, fun ha => ?_⟩, fun rx' _ => ?_⟩
    · refine smooth_readable g ha (h8 f (List.mem_cons_self ..)) hsmall fun _ h1 => ?_
      obtain ⟨t, ht, -⟩ := hlegal.1.readable h1
      rw [ht]
      rfl
    · exact ih hlegal.2 hfits.2 fun g hg => h8 g (List.mem_cons_of_mem _ hg)

/-- A legal frame that makes its message too long is not let in. -/
theorem enter_tooBig (ha : a.Ok) (hacc : a.accepts cfg.server f = true)
    (hsmall : a.lengthOf cfg f < 2 ^ 64) (hbig : cfg.limit < a.lengthOf cfg f) :
    (a.rx cfg).enter cfg f.header = .error codeMessageTooBig := by
  have hadm := admits_accepts ha hacc hsmall
  rw [if_pos hbig] at hadm
  unfold Rx.enter rx
  simp only [hadm]

/-- A legal frame that fits is let in. -/
theorem enter_fits (ha : a.Ok) (hacc : a.accepts cfg.server f = true) (hfits : a.Fits cfg f)
    (hlimit : cfg.limit < 2 ^ 64) :
    (a.rx cfg).enter cfg f.header = .ok ([f.header.startCall], ⟨f.header, 0,
      (draft cfg (a.opcodeOf f) (a.before f)).extend cfg f.header⟩,
      if 8 ≤ f.opcode.val then a.waiting cfg else none) := by
  have hadm := admits_accepts ha hacc (lt_of_le_of_lt hfits hlimit)
  rw [if_neg (Nat.not_lt.2 hfits)] at hadm
  unfold Rx.enter rx
  simp only [hadm]

end

end Assembly

/-! ## What is delivered -/

/-- A message that the call delivers is not longer than `n`. -/
def Call.Within (n : Nat) : Call → Prop
  | .msgRecv _ _ msg _ => msg.length ≤ n
  | _ => True

/-- No message that has been begun is longer than the limit. -/
structure Rx.Bounded (cfg : RxConfig) (rx : Rx) : Prop where
  waiting : ∀ k, rx.waiting = some k → k.length ≤ cfg.limit
  frame : ∀ f, rx.frame = some f → f.draft.length ≤ cfg.limit

/-- The verdict keeps to the limit. -/
def Verdict.Bounded (cfg : RxConfig) : Verdict → Prop
  | .more rx => rx.Bounded cfg
  | .done _ msg rx => msg.length ≤ cfg.limit ∧ rx.Bounded cfg
  | _ => True

theorem Rx.Bounded.fresh (cfg : RxConfig) : Rx.Bounded cfg .fresh :=
  ⟨fun k h => (by cases h), fun f h => (by cases h)⟩

section

variable {cfg : RxConfig} {rx : Rx}

/-- The message that a frame belongs to, and the one that waits meanwhile. -/
theorem Rx.Bounded.of_belongs (hb : rx.Bounded cfg) {opcode : Fin 16} {k : Draft}
    {rest : Option Draft} (h : belongs rx.waiting opcode = some (k, rest)) :
    k.length ≤ cfg.limit ∧ ∀ k', rest = some k' → k'.length ≤ cfg.limit := by
  unfold belongs at h
  cases hw : rx.waiting with
  | none =>
    simp only [hw] at h
    split_ifs at h
    cases h
    exact ⟨Nat.zero_le _, fun k' h => (by cases h)⟩
  | some k₀ =>
    simp only [hw] at h
    split_ifs at h
    · cases h
      exact ⟨hb.waiting _ hw, fun k' h => (by cases h)⟩
    · cases h
      refine ⟨Nat.zero_le _, fun k' h => ?_⟩
      cases h
      exact hb.waiting _ hw

/-- The beginning of a frame keeps to the limit. -/
theorem Rx.Bounded.enter (hb : rx.Bounded cfg) {h : Header} {calls : List Call} {f : Progress}
    {waiting : Option Draft} (he : rx.enter cfg h = .ok (calls, f, waiting)) :
    (∀ c ∈ calls, c.Within cfg.limit) ∧ f.draft.length ≤ cfg.limit ∧
      ∀ k, waiting = some k → k.length ≤ cfg.limit := by
  unfold Rx.enter at he
  cases hf : rx.frame with
  | some g =>
    simp only [hf] at he
    cases he
    exact ⟨fun c hc => (by cases hc), hb.frame _ hf, hb.waiting⟩
  | none =>
    simp only [hf] at he
    cases ha : Rx.admits cfg rx.waiting h with
    | error code => simp [ha] at he
    | ok x =>
      obtain ⟨g, rest⟩ := x
      rw [ha] at he
      cases he
      refine ⟨fun c hc => ?_, ?_⟩
      · rw [List.mem_singleton] at hc
        rw [hc]
        trivial
      · unfold Rx.admits at ha
        split_ifs at ha
        cases hbel : belongs rx.waiting h.opcode with
        | none => simp [hbel] at ha
        | some y =>
          obtain ⟨k, rest'⟩ := y
          simp only [hbel] at ha
          split_ifs at ha with hbig
          cases ha
          have hk := hb.of_belongs hbel
          refine ⟨?_, hk.2⟩
          change (k.extend cfg h).length ≤ cfg.limit
          unfold Draft.extend
          split_ifs
          · exact Nat.le_of_not_lt hbig
          · exact hk.1

theorem Draft.verdict_bounded {k : Draft} (hk : k.length ≤ cfg.limit) {waiting : Option Draft}
    (hw : ∀ k', waiting = some k' → k'.length ≤ cfg.limit) :
    (k.verdict cfg waiting).Bounded cfg := by
  have hrest : Rx.Bounded cfg ⟨waiting, none⟩ := ⟨hw, fun f h => (by cases h)⟩
  unfold Draft.verdict
  split_ifs
  · cases hg : k.gather with
    | none => trivial
    | some msg =>
      simp only
      split_ifs
      · trivial
      · refine ⟨?_, hrest⟩
        rw [length_of_gather hg]
        exact hk
  · exact ⟨Nat.zero_le _, hrest⟩

/-- A piece keeps to the limit. -/
theorem Rx.Bounded.piece (hb : rx.Bounded cfg) (skip : Nat) (h : Header) (data : List UInt8) :
    (∀ c ∈ (rx.piece skip cfg h data).calls, c.Within cfg.limit) ∧
      (rx.piece skip cfg h data).verdict.Bounded cfg := by
  cases he : rx.enter cfg h with
  | error code =>
    rw [Rx.piece_error he]
    exact ⟨fun c hc => (by cases hc), trivial⟩
  | ok x =>
    obtain ⟨calls, f, waiting⟩ := x
    obtain ⟨hcalls, hlen, hwait⟩ := hb.enter he
    have hpiece : (∀ c ∈ (f.piece skip cfg waiting data).calls, c.Within cfg.limit) ∧
        (f.piece skip cfg waiting data).verdict.Bounded cfg := by
      rcases f.piece_cases skip cfg waiting data with ⟨-, heq⟩ | ⟨text, -, ⟨-, heq⟩ | ⟨-, heq⟩⟩ <;>
        rw [heq]
      · exact ⟨fun c hc => (by cases hc), trivial⟩
      · rcases (f.advance cfg data text).finish_cases cfg waiting with heq' | ⟨-, heq'⟩ | ⟨-, heq'⟩ <;>
          rw [heq']
        · refine ⟨fun c hc => ?_, trivial⟩
          rw [List.mem_singleton.1 hc]
          trivial
        · have hlen' : (f.advance cfg data text).draft.length ≤ cfg.limit := hlen
          have hv := Draft.verdict_bounded hlen' hwait
          refine ⟨fun c hc => ?_, hv⟩
          rcases List.mem_cons.1 hc with rfl | hc
          · trivial
          · rw [List.mem_singleton.1 hc]
            trivial
        · refine ⟨fun c hc => ?_, ?_⟩
          · rcases List.mem_cons.1 hc with rfl | hc
            · trivial
            · rw [List.mem_singleton.1 hc]
              trivial
          · refine ⟨fun k hk => ?_, fun g hg => (by cases hg)⟩
            cases hk
            exact hlen
      · refine ⟨fun c hc => ?_, hwait, fun g hg => ?_⟩
        · rw [List.mem_singleton.1 hc]
          trivial
        · cases hg
          exact hlen
    rw [Rx.piece_ok he]
    refine ⟨fun c hc => ?_, hpiece.2⟩
    rcases List.mem_append.1 hc with hc | hc
    · exact hcalls c hc
    · exact hpiece.1 c hc

theorem msgCall_within {opcode : Fin 16} {msg : List UInt8} {n : Nat} (h : msg.length ≤ n) :
    (msgCall opcode msg).Within n := h

theorem Rx.Bounded.react (hb : rx.Bounded cfg) (q : Bool) (i : Item) :
    (∀ c ∈ (rx.react q cfg i).calls, c.Within cfg.limit) ∧
      ∀ rx', (rx.react q cfg i).fate = .live rx' → rx'.Bounded cfg := by
  cases i with
  | malformed => exact ⟨fun c hc => (by cases hc), fun rx' h => (by cases h)⟩
  | piece h data =>
    obtain ⟨hcalls, hverdict⟩ := hb.piece 2 h data
    change (∀ c ∈ ((rx.piece 2 cfg h data).report q).calls, c.Within cfg.limit) ∧
      ∀ rx', ((rx.piece 2 cfg h data).report q).fate = .live rx' → rx'.Bounded cfg
    unfold Reaction.report
    cases hv : (rx.piece 2 cfg h data).verdict with
    | more rx₁ =>
      rw [hv] at hverdict
      refine ⟨hcalls, fun rx' hlive => ?_⟩
      cases hlive
      exact hverdict
    | reject code => exact ⟨hcalls, fun rx' hlive => (by cases hlive)⟩
    | overflow => exact ⟨hcalls, fun rx' hlive => (by cases hlive)⟩
    | done opcode msg rx₁ =>
      rw [hv] at hverdict
      obtain ⟨hmsg, hrx₁⟩ := hverdict
      have hmore : ∀ c ∈ (rx.piece 2 cfg h data).calls ++ [msgCall opcode msg],
          c.Within cfg.limit := by
        intro c hc
        rcases List.mem_append.1 hc with hc | hc
        · exact hcalls c hc
        · rw [List.mem_singleton.1 hc]
          exact msgCall_within hmsg
      by_cases h8 : opcode = 8
      · simp only [if_pos h8]
        cases q with
        | true => exact ⟨hmore, fun rx' hlive => (by cases hlive)⟩
        | false => exact ⟨hcalls, fun rx' hlive => (by cases hlive)⟩
      · simp only [if_neg h8]
        refine ⟨hmore, fun rx' hlive => ?_⟩
        cases hlive
        exact hrx₁

/-- **No message that is delivered is longer than the limit**, and none that has been
begun is. -/
theorem Rx.Bounded.run (hb : rx.Bounded cfg) (q : Bool) (items : List Item) :
    (∀ c ∈ (rx.run q cfg items).calls, c.Within cfg.limit) ∧
      ∀ rx', (rx.run q cfg items).fate = .live rx' → rx'.Bounded cfg := by
  induction items generalizing rx with
  | nil =>
    refine ⟨fun c hc => (by cases hc), fun rx' hlive => ?_⟩
    cases hlive
    exact hb
  | cons i items ih =>
    obtain ⟨hcalls, hnext⟩ := hb.react q i
    have hrun : rx.run q cfg (i :: items) =
      (rx.react q cfg i).andThen fun rx => rx.run q cfg items := rfl
    rw [hrun]
    cases hf : (rx.react q cfg i).fate with
    | off heard r =>
      rw [Report.andThen_off hf]
      refine ⟨hcalls, fun rx' hlive => ?_⟩
      rw [hf] at hlive
      cases hlive
    | live rx₁ =>
      rw [Report.andThen_live hf]
      obtain ⟨hcalls', hlive'⟩ := ih (hnext rx₁ hf)
      refine ⟨fun c hc => ?_, hlive'⟩
      rcases List.mem_append.1 hc with hc | hc
      · exact hcalls c hc
      · exact hcalls' c hc

end

/-! ## A Close at the end -/

/-- A frame that has begun is not rejected for its length. -/
theorem Progress.piece_rejects {cfg : RxConfig} {f : Progress} {waiting : Option Draft}
    {data : List UInt8} {code : Nat} (h : (f.piece 2 cfg waiting data).verdict = .reject code) :
    code % 2 ^ 16 ≠ codeMessageTooBig := by
  rcases f.piece_cases 2 cfg waiting data with ⟨-, heq⟩ | ⟨text, -, ⟨-, heq⟩ | ⟨-, heq⟩⟩ <;>
    rw [heq] at h
  · cases h
    decide
  · rcases (f.advance cfg data text).finish_cases cfg waiting with heq' | ⟨-, heq'⟩ | ⟨-, heq'⟩ <;>
      rw [heq'] at h
    · cases h
      decide
    · simp only at h
      unfold Draft.verdict at h
      split_ifs at h
      · cases hg : (f.advance cfg data text).draft.gather with
        | none => simp [hg] at h
        | some msg =>
          simp only [hg] at h
          split_ifs at h
          cases h
          decide
    · cases h
  · cases h

/-- What a piece of a Close comes to. -/
theorem Progress.piece_close (cfg : RxConfig) {f : Progress} (h8 : f.draft.opcode = 8)
    (hfin : f.header.fin = true) (waiting : Option Draft) (data : List UInt8) :
    (∃ g : Progress, (f.piece 2 cfg waiting data).verdict = .more ⟨waiting, some g⟩ ∧
        g.draft.opcode = 8 ∧ g.header.fin = true) ∨
      (∃ code, (f.piece 2 cfg waiting data).verdict = .reject code) ∨
      (f.piece 2 cfg waiting data).verdict = .overflow ∨
      ∃ msg rx, (f.piece 2 cfg waiting data).verdict = .done 8 msg rx := by
  rcases f.piece_cases 2 cfg waiting data with ⟨-, heq⟩ | ⟨text, -, ⟨-, heq⟩ | ⟨-, heq⟩⟩ <;> rw [heq]
  · exact Or.inr (Or.inl ⟨_, rfl⟩)
  · rcases (f.advance cfg data text).finish_cases cfg waiting with heq' | ⟨-, heq'⟩ | ⟨hno, -⟩
    · rw [heq']
      exact Or.inr (Or.inl ⟨_, rfl⟩)
    · rw [heq']
      have hop : (f.advance cfg data text).draft.opcode = 8 := h8
      simp only
      unfold Draft.verdict
      rw [if_pos (by simp [hop])]
      cases (f.advance cfg data text).draft.gather with
      | none => exact Or.inr (Or.inr (Or.inl rfl))
      | some msg =>
        simp only
        split_ifs
        · exact Or.inr (Or.inl ⟨_, rfl⟩)
        · exact Or.inr (Or.inr (Or.inr ⟨msg, _, by rw [hop]⟩))
    · have hno' : f.header.fin = false := hno
      rw [hfin] at hno'
      cases hno'
  · exact Or.inl ⟨_, rfl, h8, hfin⟩

theorem statusOf_lt (msg : List UInt8) : statusOf msg < 2 ^ 16 := by
  unfold statusOf
  split_ifs with h
  · have hlt := beVal_lt (msg.take 2)
    rw [List.length_take, Nat.min_eq_left h] at hlt
    exact hlt
  · exact Nat.two_pow_pos 16

/-- A Close with the code 1009 is queued on account of the verdict only if it
answers one. -/
theorem Reaction.answers_tooBig {q : Bool} {R : Reaction} {code : Nat} {reason : List UInt8}
    (hrej : ∀ code, R.verdict = .reject code → code % 2 ^ 16 ≠ codeMessageTooBig)
    (hmem : Reply.close code reason ∈ (R.report q).replies)
    (hcode : code % 2 ^ 16 = codeMessageTooBig) :
    (R.report q).fate.heard = some codeMessageTooBig ∧ ∀ rx, (R.report q).fate ≠ .live rx := by
  unfold Reaction.report at hmem ⊢
  cases hv : R.verdict with
  | more rx =>
    rw [hv] at hmem
    cases hmem
  | overflow =>
    rw [hv] at hmem
    cases hmem
  | reject code' =>
    rw [hv] at hmem
    cases q with
    | true =>
      have hmem' : Reply.close code reason ∈ [Reply.close code' []] := hmem
      rw [List.mem_singleton] at hmem'
      cases hmem'
      exact absurd hcode (hrej code hv)
    | false => cases hmem
  | done opcode msg rx =>
    rw [hv] at hmem
    simp only at hmem ⊢
    by_cases h8 : opcode = 8
    · simp only [if_pos h8] at hmem ⊢
      cases q with
      | true =>
        simp only [if_true, List.mem_singleton, Reply.close.injEq] at hmem ⊢
        rw [hmem.1, Nat.mod_eq_of_lt (statusOf_lt msg)] at hcode
        rw [hcode]
        exact ⟨rfl, fun rx h => (by cases h)⟩
      | false => cases hmem
    · simp only [if_neg h8] at hmem
      split_ifs at hmem
      · rw [List.mem_singleton] at hmem
        cases hmem
      · cases hmem

/-- A Close of which something has come: one with the code 1009 is queued only as the
answer to it. -/
theorem Rx.run_close {cfg : RxConfig} {q : Bool} {rx : Rx} {f : Progress}
    (hf : rx.frame = some f) (h8 : f.draft.opcode = 8) (hfin : f.header.fin = true)
    {items : List Item} {code : Nat} {reason : List UInt8}
    (hmem : Reply.close code reason ∈ (rx.run q cfg items).replies)
    (hcode : code % 2 ^ 16 = codeMessageTooBig) :
    (rx.run q cfg items).fate.heard = some codeMessageTooBig := by
  induction items generalizing rx f with
  | nil => cases hmem
  | cons i items ih =>
    have hrun : rx.run q cfg (i :: items) =
      (rx.react q cfg i).andThen fun rx => rx.run q cfg items := rfl
    rw [hrun] at hmem ⊢
    cases i with
    | malformed =>
      have hoff : (rx.react q cfg .malformed).fate =
        .off none (if q then Err.callbackFailure.code else 1) := rfl
      rw [Report.andThen_off hoff] at hmem
      change _ ∈ (if q then [Reply.close 0 []] else []) at hmem
      split_ifs at hmem
      · rw [List.mem_singleton] at hmem
        cases hmem
        exact absurd hcode (by decide)
      · cases hmem
    | piece h data =>
      have he : rx.enter cfg h = .ok ([], f, rx.waiting) := by
        unfold Rx.enter
        simp only [hf]
      have hreact : rx.react q cfg (.piece h data) =
          (f.piece 2 cfg rx.waiting data).report q := by
        rw [Rx.react, Rx.piece_ok he]
        rfl
      rw [hreact] at hmem ⊢
      have hlast : ∀ code, (f.piece 2 cfg rx.waiting data).verdict = .reject code →
          code % 2 ^ 16 ≠ codeMessageTooBig := fun code h => Progress.piece_rejects h
      have hcases := Progress.piece_close cfg h8 hfin rx.waiting data
      obtain ⟨R, hR⟩ : ∃ R, f.piece 2 cfg rx.waiting data = R := ⟨_, rfl⟩
      rw [hR] at hcases hlast hmem ⊢
      cases hfate : (R.report q).fate with
      | off heard r =>
        rw [Report.andThen_off hfate] at hmem ⊢
        exact (Reaction.answers_tooBig hlast hmem hcode).1
      | live rx' =>
        rw [Report.andThen_live hfate] at hmem ⊢
        rcases List.mem_append.1 hmem with hmem | hmem
        · exact absurd hfate ((Reaction.answers_tooBig hlast hmem hcode).2 rx')
        · rcases Reaction.report_live hfate with hv | ⟨opcode, msg, hv⟩ <;> rw [hv] at hcases
          · rcases hcases with ⟨g, h, hg8, hgfin⟩ | ⟨code, h⟩ | h | ⟨msg, rx'', h⟩ <;> cases h
            exact ih rfl hg8 hgfin hmem
          · rcases hcases with ⟨g, h, -⟩ | ⟨code, h⟩ | h | ⟨msg', rx'', h⟩ <;> cases h
            -- a Close that is complete ends the receiver
            unfold Reaction.report at hfate
            rw [hv] at hfate
            cases q <;> cases hfate

/-! ## The pass that rejects a frame -/

/-- When the answer is a Close with the code 1009 that answers none, no frame is let
in. -/
theorem Rx.react_tooBig {cfg : RxConfig} {rx : Rx} {h : Header} {data : List UInt8} {r : Int}
    {reason : List UInt8}
    (hmem : Reply.close codeMessageTooBig reason ∈ (rx.react true cfg (.piece h data)).replies)
    (hoff : (rx.react true cfg (.piece h data)).fate = .off none r) :
    rx.enter cfg h = .error codeMessageTooBig := by
  cases he : rx.enter cfg h with
  | error code =>
    rw [Rx.react, Rx.piece_error he] at hmem
    have hmem' : Reply.close codeMessageTooBig reason ∈ [Reply.close code []] := hmem
    rw [List.mem_singleton] at hmem'
    cases hmem'
    rfl
  | ok x =>
    obtain ⟨calls, f, waiting⟩ := x
    have hrej : ∀ code, (rx.piece 2 cfg h data).verdict = .reject code →
        code % 2 ^ 16 ≠ codeMessageTooBig := by
      intro code hcode
      rw [Rx.piece_ok he] at hcode
      exact Progress.piece_rejects hcode
    have hheard := (Reaction.answers_tooBig hrej hmem (by decide)).1
    change (rx.react true cfg (.piece h data)).fate.heard = _ at hheard
    rw [hoff] at hheard
    cases hheard

/-- The chunks of the two messages are as they were. -/
def SameChunks (c c' : EventContext) : Prop :=
  c'.imsgs0.chunks = c.imsgs0.chunks ∧ c'.imsgs1.chunks = c.imsgs1.chunks

theorem recvNewFrame_chunks {c c' : EventContext} {iocb : Iocb} {newFrame : Bool}
    (h : recvNewFrame c iocb = some (c', newFrame)) : SameChunks c c' := by
  unfold recvNewFrame EventContext.setImsg EventContext.curImsg EventImsg.set at h
  cases hslot : c.imsg <;> simp only [hslot] at h <;> split_ifs at h <;> cases h <;>
    exact ⟨rfl, rfl⟩

/-- A frame that makes its message too long is answered before any of it is stored. -/
theorem recvPiece_tooBig {cfg : RxConfig} {c : EventContext} {rx : Rx} (hm : Models cfg c rx)
    {h : Header} (hv : h.Valid) (data : List UInt8) (he : rx.enter cfg h = .error codeMessageTooBig)
    (io : Io) :
    ∃ c', recvPiece (h.iocb data) c io = failWith codeMessageTooBig c' io ∧ SameChunks c c' := by
  obtain ⟨hs, hstate⟩ := hm
  unfold Rx.enter at he
  cases hframe : rx.frame with
  | some f => simp [hframe] at he
  | none =>
    simp only [hframe] at he hstate
    cases ha : Rx.admits cfg rx.waiting h with
    | ok x => simp [ha] at he
    | error code =>
      rw [ha] at he
      cases he
      unfold Rx.admits at ha
      by_cases hbad : h.rsv ≠ 0 ∨ h.key.isSome ≠ cfg.server
      · rw [if_pos hbad] at ha
        cases ha
      · rw [if_neg hbad] at ha
        have hok : h.rsv = 0 ∧ h.key.isSome = cfg.server := by
          rw [not_or, not_not, not_not] at hbad
          exact hbad
        have hnew := recvNewFrame_between hstate hok.1 data
        cases hb : belongs rx.waiting h.opcode with
        | none =>
          simp only [hb] at ha
          cases ha
        | some y =>
          obtain ⟨k, rest⟩ := y
          simp only [hb] at ha hnew
          obtain ⟨c', hc', hw, ho⟩ := hnew
          have hbig : cfg.limit < (k.length + h.length) % 2 ^ 64 := by
            by_contra hnot
            rw [if_neg hnot] at ha
            cases ha
          have hbegin := recvBeginFrame_spec (hs.congr (hw io).settings) ho hok hv data io
          rw [if_pos hbig] at hbegin
          refine ⟨c', ?_, recvNewFrame_chunks hc'⟩
          rw [recvPiece, if_neg fun hb => hbad ((badFrameBits_iff hs h data).1 hb), hc']
          simp only [if_true]
          rw [hbegin]
          unfold failWith
          rfl

/-- **The pass that rejects a frame as too long** leaves at once; no callback has been
called and nothing has been stored. -/
theorem recvPass_tooBig {cfg : RxConfig} {t s' : EventContext × Io} {rx : Rx} {d : Dec}
    {look : List UInt8} (hr : Runs cfg true t rx d look)
    (hpass : (∃ r, recvPass t = .leave r s') ∨ recvPass t = .again s') :
    ∃ bs items d' look', Trace cfg true t rx d look s' bs items d' look' ∧ items.length ≤ 1 ∧
      (∀ reason r, (rx.run true cfg items).fate = .off none r →
        Reply.close codeMessageTooBig reason ∈ (rx.run true cfg items).replies →
        (rx.run true cfg items).calls = [] ∧
        (rx.run true cfg items).replies = [.close codeMessageTooBig []] ∧
          recvPass t = .leave 0 s' ∧ SameChunks t.1 s'.1) := by
  obtain ⟨bs, hdel, s₂, d', look', hin, ht, hends⟩ := recvPass_reads hr
  obtain rfl : s₂ = s' := by
    cases hfate : (rx.run true cfg (takePiece d (look ++ bs)).items).fate with
    | live rx' =>
      rw [hfate] at hends
      rcases hends with h | ⟨h, -⟩ <;> rcases hpass with ⟨r, h'⟩ | h' <;> rw [h'] at h <;> cases h <;> rfl
    | off heard r =>
      rw [hfate] at hends
      rcases hends with h | ⟨h, -⟩ <;> rcases hpass with ⟨r, h'⟩ | h' <;> rw [h'] at h <;> cases h <;> rfl
  refine ⟨bs, _, d', look', ht, ?_, fun reason r hoff hmem => ?_⟩
  · cases takePiece d (look ++ bs) with
    | wait d₁ look₁ => exact Nat.zero_le 1
    | bad => exact Nat.le_refl 1
    | piece h off data d₁ look₁ => exact Nat.le_refl 1
  obtain ⟨bs', hdel', -, -, hcases⟩ := recvPass_steps hr.listens hr.enabled
  obtain rfl : bs' = bs :=
    List.append_cancel_right (hdel'.pending.symm.trans hdel.pending)
  rcases hcases with ⟨d₁, look₁, hp, -⟩ | ⟨hp, -⟩ | ⟨h, off, hdr, raw, d₁, look₁, hp, heq, hto⟩
  · rw [hp] at hmem
    cases hmem
  · rw [hp] at hmem
    have hmem' : Reply.close codeMessageTooBig reason ∈ [Reply.close 0 []] := hmem
    rw [List.mem_singleton] at hmem'
    cases hmem'
  · rw [hp] at hmem hoff ⊢
    have hrun : rx.run true cfg [.piece h (h.mask off raw)] =
        rx.react true cfg (.piece h (h.mask off raw)) := Report.andThen_start _
    change Reply.close codeMessageTooBig reason ∈
      (rx.run true cfg [.piece h (h.mask off raw)]).replies at hmem
    change (rx.run true cfg [.piece h (h.mask off raw)]).fate = .off none r at hoff
    change (rx.run true cfg [.piece h (h.mask off raw)]).calls = [] ∧
      (rx.run true cfg [.piece h (h.mask off raw)]).replies = _ ∧ _
    rw [hrun] at hmem hoff ⊢
    have he := Rx.react_tooBig hmem hoff
    have hm : Models cfg (fed t).1 rx := hr.listens.models.congr rfl rfl
    obtain ⟨c', heq', hsame⟩ := recvPiece_tooBig hm hto.valid (h.mask off raw) he (fed t).2
    obtain ⟨r', s₃, hfail, hsp, -⟩ := failWith_leave codeMessageTooBig (c', (fed t).2)
    have hleave := heq.trans (heq'.trans hfail)
    have hreact : rx.react true cfg (.piece h (h.mask off raw)) =
        ⟨[], [.close codeMessageTooBig []], .off none 0⟩ := by
      rw [Rx.react, Rx.piece_error he]
      rfl
    rw [hreact]
    obtain rfl : s₃ = s₂ := by
      rcases hpass with ⟨r, h'⟩ | h' <;> rw [hleave] at h' <;> cases h'
      rfl
    have hzero : r' = 0 := by
      have hfate : (rx.run true cfg (takePiece d (look ++ bs')).items).fate = .off none 0 := by
        rw [hp]
        change (rx.run true cfg [.piece h (h.mask off raw)]).fate = _
        rw [hrun, hreact]
      rw [hfate] at hends
      rcases hends with h | ⟨h, -⟩ <;> rw [hleave] at h <;> cases h
      rfl
    refine ⟨rfl, rfl, by rw [hleave, hzero], ?_⟩
    have hc := hsp.context
    simp only [EventContext.rxPart, Prod.mk.injEq] at hc
    obtain ⟨-, -, -, -, -, -, -, -, h0, h1, -⟩ := hc
    exact ⟨(congrArg EventImsg.chunks h0).trans hsame.1, (congrArg EventImsg.chunks h1).trans hsame.2⟩

/-! ## Runs of `wslay_event_recv` -/

/-- What is seen of the callbacks that are set. -/
theorem flatMap_framing_filter (cb : EventCallbacks) (calls : List Call) :
    (calls.filter cb.takes).flatMap Call.framing =
      (calls.flatMap Call.framing).filter cb.shows := by
  have hfilter : ∀ calls : List Call, calls.flatMap Call.framing =
      (calls.filter fun c => !c.isMsg).flatMap seen := by
    intro calls
    induction calls with
    | nil => rfl
    | cons c calls ih =>
      rw [List.flatMap_cons, List.filter_cons, ih, Call.framing]
      cases c.isMsg <;> simp
  rw [hfilter, hfilter, ← flatMap_seen_filter, List.filter_filter, List.filter_filter]
  simp only [Bool.and_comm]

namespace Assembly

/-- The length that is compared with the limit: that of the message so far, or in
no-buffering mode that of the frame. -/
def countedLength (noBuffering : Bool) (a : Assembly) (f : Frame) : Nat :=
  if noBuffering then f.payload.length else (a.joined f).length

theorem lengthOf_counted {cfg : RxConfig} {a : Assembly} {f : Frame} (ha : a.Ok)
    (hacc : a.accepts cfg.server f = true) :
    a.lengthOf cfg f = a.countedLength cfg.noBuffering f := by
  obtain ⟨-, -, -, hkind⟩ := belongs_accepts ha hacc
  unfold lengthOf countedLength
  cases hno : cfg.noBuffering with
  | false =>
    rw [kept_of_buffering hno, if_neg (by simp), joined, List.length_append]
  | true =>
    rw [if_pos rfl]
    by_cases hctrl : 8 ≤ f.opcode.val
    · have hnone : a.before f = [] := by
        have h := joined_ctrl (a := a) hctrl
        rw [joined] at h
        exact List.append_left_eq_self.1 h
      rw [hnone, kept, ite_self, List.length_nil, Nat.zero_add]
    · have hnone : cfg.buffers (a.opcodeOf f) = false := by
        unfold RxConfig.buffers
        rw [hno]
        simpa using fun h => hctrl (hkind.2 h)
      rw [kept, hnone]
      simp

/-- What is kept of a message is not longer than the limit. -/
def Room (cfg : RxConfig) : Assembly → Prop
  | .idle => True
  | .inside opcode body => (kept cfg opcode body).length ≤ cfg.limit

theorem Room.before {cfg : RxConfig} {a : Assembly} (hr : a.Room cfg) (f : Frame) :
    (kept cfg (a.opcodeOf f) (a.before f)).length ≤ cfg.limit := by
  have hnil : ∀ opcode, (kept cfg opcode []).length ≤ cfg.limit := by
    intro opcode
    rw [kept, ite_self]
    exact Nat.zero_le _
  cases a with
  | idle => exact hnil _
  | inside opcode body =>
    unfold opcodeOf Assembly.before
    by_cases hctrl : 8 ≤ f.opcode.val
    · simp only [if_pos hctrl]
      exact hnil _
    · simp only [if_neg hctrl]
      exact hr

theorem Room.after {cfg : RxConfig} {a : Assembly} {f : Frame} (hr : a.Room cfg)
    (hfits : a.Fits cfg f) : (a.after f).Room cfg := by
  unfold Assembly.after
  split_ifs with hctrl hfin
  · exact hr
  · trivial
  · refine le_trans ?_ hfits
    unfold lengthOf kept joined
    split_ifs
    · rw [List.length_append]
    · exact Nat.zero_le _

theorem All.room {cfg : RxConfig} {a : Assembly} {fs : List Frame} (hr : a.Room cfg)
    (hfits : a.All (Fits cfg) fs) : (a.afterAll fs).Room cfg := by
  induction fs generalizing a with
  | nil => exact hr
  | cons f fs ih => exact ih (hr.after hfits.1) hfits.2

/-- The message up to this frame is not longer than `n`. -/
def Short (noBuffering : Bool) (n : Nat) (a : Assembly) (f : Frame) : Prop :=
  a.countedLength noBuffering f ≤ n

theorem All.fits {cfg : RxConfig} {a : Assembly} {fs : List Frame} (ha : a.Ok)
    (hlegal : a.All (Legal cfg.server) fs) (hshort : a.All (Short cfg.noBuffering cfg.limit) fs) :
    a.All (Fits cfg) fs := by
  induction fs generalizing a with
  | nil => trivial
  | cons f fs ih =>
    refine ⟨?_, ih (Legal.after_ok ha hlegal.1) hlegal.2 hshort.2⟩
    rw [Fits, lengthOf_counted ha hlegal.1.1]
    exact hshort.1

end Assembly

/-- The stream begins with legal frames whose messages are no longer than the limit,
and goes on with a legal frame that makes its message longer.  Of that frame there is
the header, and an octet of the payload if it has any. -/
structure Overlong (server noBuffering : Bool) (limit : Nat) (pre : List Frame) (f : Frame)
    (stream : List UInt8) : Prop where
  valid : ∀ g ∈ pre ++ [f], g.header.Valid
  before : ∀ g ∈ pre, g.opcode ≠ 8
  legal : Assembly.idle.All (Assembly.Legal server) (pre ++ [f])
  short : Assembly.idle.All (Assembly.Short noBuffering limit) pre
  long : limit < (Assembly.idle.afterAll pre).countedLength noBuffering f
  octets : ∃ x y rest, f.payload = x ++ y ∧ (x = [] → y = []) ∧
    stream = pre.flatMap Frame.encode ++ (f.header.encode ++ (f.header.mask 0 x ++ rest))

/-- What comes of the frames and of the one that is too long. -/
def tooLongReport (cfg : RxConfig) (pre : List Frame) : Report :=
  ⟨Assembly.idle.along (Assembly.callsFor cfg) pre,
    pre.flatMap Assembly.pongOf ++ [.close codeMessageTooBig []], .off none 0⟩

section

variable {cfg : RxConfig} {pre fs : List Frame} {f : Frame} {stream : List UInt8}

open Assembly (Legal Fits Short)

/-- What comes of legal frames that fit, to who does not look at the messages. -/
theorem legal_front (hlimit : cfg.limit < 2 ^ 64) (hv : ∀ g ∈ fs, g.header.Valid)
    (h8 : ∀ g ∈ fs, g.opcode ≠ 8) (hlegal : Assembly.idle.All (Legal cfg.server) fs)
    (hfits : Assembly.idle.All (Fits cfg) fs) :
    Rx.fresh.Meets true cfg (Rx.Smooth Call.framing cfg) (fs.map Frame.item) ∧
      Report.Alike Call.framing (Rx.fresh.run true cfg (fs.map Frame.item))
        ⟨Assembly.idle.along (Assembly.callsFor cfg) fs, fs.flatMap Assembly.pongOf,
          .live ((Assembly.idle.afterAll fs).rx cfg)⟩ := by
  obtain ⟨hmeets, halike⟩ : Rx.fresh.Meets true cfg (Rx.Smooth Call.framing cfg)
        (fs.map Frame.item) ∧
      Report.Alike Call.framing (Rx.fresh.run true cfg (fs.map Frame.item))
        (Assembly.idle.run true cfg fs) :=
    Assembly.framing_front (fun _ _ _ _ => rfl) Assembly.ok_idle hv h8
      (hlegal.smooth Call.framing hlimit hfits h8)
  rw [Assembly.run_legal hlegal hfits, Assembly.along_const] at halike
  exact ⟨hmeets, halike⟩

namespace Overlong

theorem valid_pre (h : Overlong cfg.server cfg.noBuffering cfg.limit pre f stream) :
    ∀ g ∈ pre, g.header.Valid := fun g hg => h.valid g (List.mem_append_left _ hg)

theorem fits (h : Overlong cfg.server cfg.noBuffering cfg.limit pre f stream) :
    Assembly.idle.All (Fits cfg) pre :=
  Assembly.All.fits Assembly.ok_idle (Assembly.all_append.1 h.legal).1 h.short

theorem front (h : Overlong cfg.server cfg.noBuffering cfg.limit pre f stream)
    (hlimit : cfg.limit < 2 ^ 63) :
    Rx.fresh.Meets true cfg (Rx.Smooth Call.framing cfg) (pre.map Frame.item) ∧
      Report.Alike Call.framing (Rx.fresh.run true cfg (pre.map Frame.item))
        ⟨Assembly.idle.along (Assembly.callsFor cfg) pre, pre.flatMap Assembly.pongOf,
          .live ((Assembly.idle.afterAll pre).rx cfg)⟩ :=
  legal_front (by omega) h.valid_pre h.before (Assembly.all_append.1 h.legal).1 h.fits

/-- The frame that is too long is not let in. -/
theorem enter (h : Overlong cfg.server cfg.noBuffering cfg.limit pre f stream)
    (hlimit : cfg.limit < 2 ^ 63) :
    ((Assembly.idle.afterAll pre).rx cfg).enter cfg f.header = .error codeMessageTooBig := by
  obtain ⟨hlegal, ⟨hacc, -⟩, -⟩ := Assembly.all_append.1 h.legal
  have hok := hlegal.afterAll_ok Assembly.ok_idle
  have hcounted := Assembly.lengthOf_counted hok hacc
  have hroom : (Assembly.idle.afterAll pre).Room cfg := Assembly.All.room trivial h.fits
  have hkept := hroom.before f
  have hpayload : f.payload.length < 2 ^ 63 := (h.valid f (by simp)).1
  refine Assembly.enter_tooBig hok hacc ?_ ?_
  · unfold Assembly.lengthOf
    omega
  · rw [hcounted]
    exact h.long

theorem react (h : Overlong cfg.server cfg.noBuffering cfg.limit pre f stream)
    (hlimit : cfg.limit < 2 ^ 63) (data : List UInt8) :
    ((Assembly.idle.afterAll pre).rx cfg).react true cfg (.piece f.header data) =
      ⟨[], [.close codeMessageTooBig []], .off none 0⟩ := by
  rw [Rx.react, Rx.piece_error (h.enter hlimit)]
  rfl

/-- The octets behind the frames that fit. -/
theorem first (h : Overlong cfg.server cfg.noBuffering cfg.limit pre f stream) :
    ∃ rest data more, stream = pre.flatMap Frame.encode ++ (f.header.encode ++ rest) ∧
      streamItems (f.header.encode ++ rest) = .piece f.header data :: more := by
  obtain ⟨x, y, rest, hxy, hnil, hstream⟩ := h.octets
  have hlength : f.header.length = x.length + y.length := by
    rw [Frame.header_length, hxy, List.length_append]
  obtain ⟨data, more, hitems⟩ : ∃ data more,
      payloadItems f.header 0 (f.header.mask 0 x ++ rest) = .piece f.header data :: more := by
    by_cases hx : x = []
    · have hall : 0 + (f.header.mask 0 x).length = f.header.length := by
        rw [Header.length_mask, hlength, hnil hx, List.length_nil]
        omega
      exact ⟨_, _, payloadItems_done hall rest⟩
    · have hle : 0 + (f.header.mask 0 x).length ≤ f.header.length := by
        rw [Header.length_mask]
        omega
      obtain ⟨z, more, heq⟩ := payloadItems_front (mt (Header.mask_eq_nil_iff _ _ _).1 hx) hle rest
      exact ⟨_, _, heq⟩
  exact ⟨_, data, more, hstream, by rw [streamItems_header (h.valid f (by simp)), hitems]⟩

end Overlong

/-- The first piece that is read of a frame is a piece of it. -/
theorem Reads.first {look look' rest : List UInt8} {d' : Dec} {i : Item} {items : List Item}
    {h : Header} (hr : Reads .head look (i :: items) d' look') (hv : h.Valid)
    (hlook : look = h.encode ++ rest) : ∃ data, i = .piece h data := by
  have hsame : ∀ g : Header, g.Valid → ∀ x, g.encode ++ x = h.encode ++ rest → g = h := by
    intro g hg x heq
    have hp := parseHeader_encode hg x
    rw [heq, parseHeader_encode hv] at hp
    cases hp
    rfl
  cases hr with
  | header hg hpos hbody =>
    obtain rfl := hsame _ hg _ hlook
    cases hbody with
    | piece henter _ _ _ _ =>
      rcases henter with ⟨hd, -⟩ | ⟨hd, -⟩ <;> cases hd
      exact ⟨_, rfl⟩
  | piece henter hg _ _ _ =>
    rcases henter with ⟨-, -, rfl⟩ | ⟨hd, -⟩
    · obtain rfl := hsame _ hg _ hlook
      exact ⟨_, rfl⟩
    · cases hd
  | malformed hp =>
    rw [hlook, parseHeader_encode hv] at hp
    cases hp

/-- No piece has been read. -/
theorem Reads.none {d d' : Dec} {look look' : List UInt8} (hr : Reads d look [] d' look') :
    d'.items look' = d.items look := by
  cases hr with
  | stop d look => rfl
  | header hv hpos hbody =>
    cases hbody with
    | stop d look =>
      change _ = streamItems _
      rw [streamItems_header hv]
      rfl

namespace Overlong

variable {s s' : EventContext × Io} {new more look' : List UInt8} {items : List Item} {d' : Dec}

/-- A run is still among the frames that fit, or the next piece is one of the frame
that is too long. -/
theorem trace (h : Overlong cfg.server cfg.noBuffering cfg.limit pre f stream)
    (hlimit : cfg.limit < 2 ^ 63) (ht : Trace cfg true s .fresh .head [] s' new items d' look')
    (hmore : new ++ more = stream) :
    (∃ a rest data is, d'.Whole a ∧ look' ++ more = a ++ (f.header.encode ++ rest) ∧
      streamItems (f.header.encode ++ rest) = .piece f.header data :: is ∧
      Report.Alike Call.framing (Rx.fresh.run true cfg (pre.map Frame.item))
        ((Rx.fresh.run true cfg items).andThen fun rx => rx.run true cfg (d'.items a))) ∨
    Report.Alike Call.framing (Rx.fresh.run true cfg (pre.map Frame.item))
        (Rx.fresh.run true cfg items) ∧
      (∃ rest data is, Reads .head (f.header.encode ++ rest) [] d' (look' ++ more) ∧
        streamItems (f.header.encode ++ rest) = .piece f.header data :: is) ∨
    ∃ is data is', items = is ++ .piece f.header data :: is' ∧
      Report.Alike Call.framing (Rx.fresh.run true cfg (pre.map Frame.item))
        (Rx.fresh.run true cfg is) ∧
      Report.Alike Call.framing (Rx.fresh.run true cfg items) (tooLongReport cfg pre) := by
  obtain ⟨rest, data, is, hstream, hfirst⟩ := h.first
  obtain ⟨hmeets, hpre⟩ := h.front hlimit
  rcases ht.front framing_append (Or.inl rfl) h.valid_pre hmeets (hmore.trans hstream) with
    ⟨a, hlook, hwhole, halike⟩ | ⟨items₁, items₂, rfl, hreads, halike⟩
  · exact Or.inl ⟨a, rest, data, is, hwhole, hlook, hfirst, halike⟩
  · cases items₂ with
    | nil =>
      rw [List.append_nil] at *
      exact Or.inr (Or.inl ⟨halike, rest, data, is, hreads, hfirst⟩)
    | cons i items₂ =>
      obtain ⟨data', rfl⟩ := hreads.first (h.valid f (by simp)) rfl
      refine Or.inr (Or.inr ⟨items₁, data', items₂, rfl, halike, ?_⟩)
      have hlive : (Rx.fresh.run true cfg items₁).fate =
          .live ((Assembly.idle.afterAll pre).rx cfg) := halike.fate.symm.trans hpre.fate
      have hnext : ((Assembly.idle.afterAll pre).rx cfg).run true cfg
          (.piece f.header data' :: items₂) =
          ⟨[], [.close codeMessageTooBig []], .off none 0⟩ := by
        rw [Rx.run, h.react hlimit data']
        rfl
      rw [Rx.run_append, Report.andThen_live hlive, hnext, List.append_nil]
      refine ⟨halike.calls.symm.trans hpre.calls, ?_, rfl⟩
      simp only [tooLongReport, ← halike.replies, hpre.replies]

/-- When reading is over, the frame that is too long has ended it. -/
theorem trace_off (h : Overlong cfg.server cfg.noBuffering cfg.limit pre f stream)
    (hlimit : cfg.limit < 2 ^ 63) (ht : Trace cfg true s .fresh .head [] s' new items d' look')
    (hmore : new ++ more = stream) {heard : Option Nat} {r : Int}
    (hoff : (Rx.fresh.run true cfg items).fate = .off heard r) :
    ∃ is data is', items = is ++ .piece f.header data :: is' ∧
      Report.Alike Call.framing (Rx.fresh.run true cfg (pre.map Frame.item))
        (Rx.fresh.run true cfg is) ∧
      Report.Alike Call.framing (Rx.fresh.run true cfg items) (tooLongReport cfg pre) := by
  have hpre := (h.front hlimit).2
  rcases h.trace hlimit ht hmore with ⟨a, -, -, -, -, -, -, halike⟩ | ⟨halike, -⟩ | hlast
  · rw [Report.andThen_off hoff] at halike
    have hfate := hpre.fate.symm.trans (halike.fate.trans hoff)
    cases hfate
  · have hfate := hpre.fate.symm.trans (halike.fate.trans hoff)
    cases hfate
  · exact hlast

/-- A run that has read all there is has come to the frame that is too long. -/
theorem trace_drained (h : Overlong cfg.server cfg.noBuffering cfg.limit pre f stream)
    (hlimit : cfg.limit < 2 ^ 63) (ht : Trace cfg true s .fresh .head [] s' stream items d' look')
    {rx : Rx} (hlive : (Rx.fresh.run true cfg items).fate = .live rx)
    (hwait : takePiece d' look' = .wait d' look') : False := by
  have hok := (ht.listens rx hlive).1.ready.ok
  have hnone := Dec.items_wait hok hwait
  have hmore : stream ++ [] = stream := List.append_nil _
  rcases h.trace hlimit ht hmore with
    ⟨a, rest, data, is, hwhole, hlook, hfirst, -⟩ | ⟨-, rest, data, is, hreads, hfirst⟩ |
    ⟨is, data, is', -, -, halike⟩
  · rw [List.append_nil] at hlook
    obtain ⟨rfl, rfl⟩ := hwhole.wait hok (hlook ▸ hwait)
    rw [hlook, List.nil_append] at hnone
    change streamItems _ = _ at hnone
    rw [hfirst] at hnone
    cases hnone
  · have hsame := hreads.none
    change _ = streamItems _ at hsame
    rw [List.append_nil, hnone, hfirst] at hsame
    cases hsame
  · have hfate := hlive.symm.trans halike.fate
    cases hfate

/-- **The frame that is too long ends the run**, in a pass that stores nothing. -/
theorem run (h : Overlong cfg.server cfg.noBuffering cfg.limit pre f (pendingOctets s.2.recvs))
    (hlimit : cfg.limit < 2 ^ 63) (hr : Runs cfg true s .fresh .head []) {n : Nat}
    (hn : s.2.recvs.length < n) :
    (∃ new items d' look', Trace cfg true s .fresh .head [] (recvRun s n) new items d' look' ∧
      Report.Alike Call.framing (Rx.fresh.run true cfg items) (tooLongReport cfg pre)) ∧
    ∃ m t, Loop.Reaches recvPass (recvRun s m) t ∧ t.1.readEnabled = true ∧
      Models cfg t.1 ((Assembly.idle.afterAll pre).rx cfg) ∧
      recvPass t = .leave 0 (recvRun s n) ∧ SameChunks t.1 (recvRun s n).1 := by
  have hoff : (recvRun s n).1.readEnabled = false := by
    obtain ⟨new, items, d', look', ht, hdrain⟩ := recvRun_drains hr hn
    rw [ht.follows.enabled]
    cases hfate : (Rx.fresh.run true cfg items).fate with
    | off heard r => rfl
    | live rx =>
      obtain ⟨hwait, rfl⟩ := hdrain rx hfate
      exact (h.trace_drained hlimit ht hfate hwait).elim
  obtain ⟨m, t, hreach, hon, hpass⟩ := recvRun_stops hr.hears hr.enabled hoff
  obtain ⟨new₁, items₁, d₁, look₁, ht₁⟩ := recvRun_reaches hr m hreach
  obtain ⟨rx₁, hlive⟩ : ∃ rx₁, (Rx.fresh.run true cfg items₁).fate = .live rx₁ := by
    cases hfate : (Rx.fresh.run true cfg items₁).fate with
    | live rx₁ => exact ⟨rx₁, rfl⟩
    | off heard r =>
      rw [ht₁.follows.enabled, hfate] at hon
      cases hon
  obtain ⟨new₂, items₂, d₂, look₂, ht₂, hone, hlast⟩ := recvPass_tooBig (ht₁.runs hr hlive) hpass
  have ht := ht₁.trans hlive ht₂
  have hrun : Rx.fresh.run true cfg (items₁ ++ items₂) = _ :=
    (Rx.run_append ..).trans (Report.andThen_live hlive _)
  obtain ⟨heard, r, hend⟩ : ∃ heard r,
      (Rx.fresh.run true cfg (items₁ ++ items₂)).fate = .off heard r := by
    cases hfate : (Rx.fresh.run true cfg (items₁ ++ items₂)).fate with
    | off heard r => exact ⟨heard, r, rfl⟩
    | live rx =>
      rw [ht.follows.enabled, hfate, hr.enabled] at hoff
      cases hoff
  obtain ⟨is, data, is', hitems, hfirst, halike⟩ := h.trace_off hlimit ht ht.pending.symm hend
  have hpre := (h.front hlimit).2
  -- the last piece is the one of the frame that is too long
  have hsame : items₁ = is := by
    rcases List.append_eq_append_iff.1 hitems with ⟨l, rfl, hl⟩ | ⟨l, rfl, hl⟩
    · have hnil : l = [] := by
        rw [hl, List.length_append, List.length_cons] at hone
        exact List.length_eq_zero_iff.1 (by omega)
      rw [hnil, List.append_nil]
    · cases l with
      | nil => rw [List.append_nil]
      | cons i l =>
        obtain ⟨rfl, -⟩ := List.cons.inj hl
        have hstop : (Rx.fresh.run true cfg (is ++ .piece f.header data :: l)).fate =
            .off none 0 := by
          rw [Rx.run_append, Report.andThen_live (hfirst.fate.symm.trans hpre.fate), Rx.run,
            h.react hlimit data]
          rfl
        rw [hstop] at hlive
        cases hlive
  subst hsame
  obtain rfl : rx₁ = (Assembly.idle.afterAll pre).rx cfg := by
    have hfate := hlive.symm.trans (hfirst.fate.symm.trans hpre.fate)
    cases hfate
    rfl
  refine ⟨⟨_, _, _, _, ht, halike⟩, m, t, hreach, hon, (ht₁.listens _ hlive).1.models, ?_⟩
  have hreplies := halike.replies
  rw [hrun, ← hfirst.replies, hpre.replies] at hreplies
  have hfate := halike.fate
  rw [hrun] at hfate
  obtain ⟨-, -, hleave, hchunks⟩ := hlast [] 0 hfate (by
    rw [List.append_cancel_left hreplies]
    exact List.mem_singleton_self _)
  exact ⟨hleave, hchunks⟩

/-- Until then there are the calls for the frames before. -/
theorem prefix_calls (h : Overlong cfg.server cfg.noBuffering cfg.limit pre f stream)
    (hlimit : cfg.limit < 2 ^ 63) (ht : Trace cfg true s .fresh .head [] s' new items d' look')
    (hmore : new ++ more = stream) :
    (Rx.fresh.run true cfg items).calls.flatMap Call.framing <+:
      (tooLongReport cfg pre).calls.flatMap Call.framing := by
  have hpre := (h.front hlimit).2
  change _ <+: (Report.calls ⟨Assembly.idle.along (Assembly.callsFor cfg) pre, _, _⟩).flatMap _
  rcases h.trace hlimit ht hmore with ⟨a, -, -, -, -, -, -, halike⟩ | ⟨halike, -⟩ |
    ⟨-, -, -, -, -, halike⟩
  · rw [← hpre.calls, halike.calls]
    exact (Report.prefix_andThen _ _).1.flatMap _
  · rw [← hpre.calls, halike.calls]
  · rw [halike.calls]
    rfl

end Overlong

/-- Nothing can be read of nothing. -/
theorem Reads.nothing {look' : List UInt8} {items : List Item} {d' : Dec}
    (hr : Reads .head [] items d' look') : items = [] := by
  obtain ⟨look, hlook⟩ : ∃ look : List UInt8, look = [] := ⟨_, rfl⟩
  rw [← hlook] at hr
  cases hr with
  | stop => rfl
  | header hg _ _ => exact absurd (List.append_eq_nil_iff.1 hlook).1 (List.cons_ne_nil _ _)
  | piece henter _ _ _ _ =>
    rcases henter with ⟨-, -, rfl⟩ | ⟨hd, -⟩
    · exact absurd (List.append_eq_nil_iff.1 hlook).1 (List.cons_ne_nil _ _)
    · cases hd
  | malformed hp =>
    rw [hlook] at hp
    cases hp

/-- A Close that fits: one with the code 1009 is queued only as the answer to it. -/
theorem close_answers (hlimit : cfg.limit < 2 ^ 64) {a : Assembly} (ha : a.Ok)
    (hv : f.header.Valid) (h8 : f.opcode = 8) (hacc : a.accepts cfg.server f = true)
    (hfits : a.Fits cfg f) {data : List UInt8} {items : List Item} {code : Nat}
    {reason : List UInt8}
    (hmem : Reply.close code reason ∈
      ((a.rx cfg).run true cfg (.piece f.header data :: items)).replies)
    (hcode : code % 2 ^ 16 = codeMessageTooBig) :
    ((a.rx cfg).run true cfg (.piece f.header data :: items)).fate.heard =
      some codeMessageTooBig := by
  have he := Assembly.enter_fits ha hacc hfits hlimit
  obtain ⟨p, hp⟩ : ∃ p : Progress, ⟨f.header, 0,
    (Assembly.draft cfg (a.opcodeOf f) (a.before f)).extend cfg f.header⟩ = p := ⟨_, rfl⟩
  obtain ⟨rest, hrest⟩ : ∃ rest, (if 8 ≤ f.opcode.val then a.waiting cfg else none) = rest :=
    ⟨_, rfl⟩
  rw [hp, hrest] at he
  have hop : p.draft.opcode = 8 := by
    rw [← hp, ← (Assembly.opcodeOf_eq_close ha).2 h8]
    unfold Draft.extend
    split_ifs <;> rfl
  have hfin : p.header.fin = true := by
    rw [← hp]
    refine (hv.2 ?_).1
    rw [Header.isCtrl, decide_eq_true_eq]
    change 8 ≤ f.opcode.val
    rw [h8]
    decide
  -- the same as of a receiver that is in the frame already
  have he₀ : (⟨rest, some p⟩ : Rx).enter cfg f.header = .ok ([], p, rest) := rfl
  have hreact : Report.Alike (fun _ => ([] : List Unit))
      ((a.rx cfg).react true cfg (.piece f.header data))
      ((⟨rest, some p⟩ : Rx).react true cfg (.piece f.header data)) := by
    rw [Rx.react, Rx.react, Rx.piece_ok he, Rx.piece_ok he₀]
    exact Reaction.report_alike rfl (by simp)
  have halike := hreact.andThen (f := fun rx => rx.run true cfg items) fun rx _ =>
    Report.Alike.refl _ (rx.run true cfg items)
  change Report.Alike _ ((a.rx cfg).run true cfg (.piece f.header data :: items))
    ((⟨rest, some p⟩ : Rx).run true cfg (.piece f.header data :: items)) at halike
  rw [halike.replies] at hmem
  rw [halike.fate]
  exact Rx.run_close rfl hop hfin hmem hcode

/-- **Unless a message is too long, a Close with the code 1009 is queued only as the
answer to one.** -/
theorem short_answers (hlimit : cfg.limit < 2 ^ 63) (hv : ∀ g ∈ fs, g.header.Valid)
    (hlegal : Assembly.idle.All (Legal cfg.server) fs)
    (hshort : Assembly.idle.All (Short cfg.noBuffering cfg.limit) fs)
    {s s' : EventContext × Io} {new more look' : List UInt8} {items : List Item} {d' : Dec}
    (ht : Trace cfg true s .fresh .head [] s' new items d' look')
    (hmore : new ++ more = fs.flatMap Frame.encode) {code : Nat} {reason : List UInt8}
    (hmem : Reply.close code reason ∈ (Rx.fresh.run true cfg items).replies)
    (hcode : code % 2 ^ 16 = codeMessageTooBig) :
    (Rx.fresh.run true cfg items).fate.heard = some codeMessageTooBig := by
  have hfits := Assembly.All.fits Assembly.ok_idle hlegal hshort
  -- the frames up to the first Close
  obtain ⟨pre, rest, hfs, hpre, hrest⟩ : ∃ pre rest, fs = pre ++ rest ∧
      (∀ g ∈ pre, g.opcode ≠ 8) ∧ (rest = [] ∨ ∃ f post, rest = f :: post ∧ f.opcode = 8) := by
    cases hfind : fs.find? fun g => g.opcode == 8 with
    | none =>
      refine ⟨fs, [], (List.append_nil _).symm, fun g hg h8 => ?_, Or.inl rfl⟩
      have hno := List.find?_eq_none.1 hfind g hg
      simp [h8] at hno
    | some f =>
      obtain ⟨h8, pre, post, rfl, hpre⟩ := List.find?_eq_some_iff_append.1 hfind
      refine ⟨pre, f :: post, rfl, fun g hg h8' => ?_, Or.inr ⟨f, post, rfl, by simpa using h8⟩⟩
      have hno := hpre g hg
      simp [h8'] at hno
  subst hfs
  obtain ⟨hlegalpre, hlegalrest⟩ := Assembly.all_append.1 hlegal
  obtain ⟨hfitspre, hfitsrest⟩ := Assembly.all_append.1 hfits
  have hok := hlegalpre.afterAll_ok Assembly.ok_idle
  obtain ⟨hmeets, hfront⟩ := legal_front (by omega) (fun g hg => hv g (List.mem_append_left _ hg))
    hpre hlegalpre hfitspre
  have hpongs : ∀ {R : Report}, R.replies <+: pre.flatMap Assembly.pongOf →
      Reply.close code reason ∉ R.replies := by
    intro R hR hin
    obtain ⟨msg, hmsg⟩ := Assembly.mem_pongOf (hR.subset hin)
    cases hmsg
  rw [List.flatMap_append] at hmore
  rcases ht.front framing_append (Or.inl rfl) (fun g hg => hv g (List.mem_append_left _ hg)) hmeets
    hmore with ⟨a', -, -, halike⟩ | ⟨is, is', rfl, hreads, halike⟩
  · have hprefix := (Report.prefix_andThen (Rx.fresh.run true cfg items)
      fun rx => rx.run true cfg (d'.items a')).2
    rw [← halike.replies, hfront.replies] at hprefix
    exact absurd hmem (hpongs hprefix)
  · have hlive := halike.fate.symm.trans hfront.fate
    have hreplies := halike.replies.symm.trans hfront.replies
    cases is' with
    | nil =>
      rw [List.append_nil] at hmem
      exact absurd hmem (hpongs (hreplies ▸ List.prefix_rfl))
    | cons i is' =>
      rw [Rx.run_append, Report.andThen_live hlive] at hmem ⊢
      rcases hrest with rfl | ⟨f, post, rfl, h8⟩
      · cases hreads.nothing
      · have hvf := hv f (by simp)
        rw [List.flatMap_cons, Frame.encode, List.append_assoc] at hreads
        obtain ⟨data, rfl⟩ := hreads.first hvf rfl
        rcases List.mem_append.1 hmem with hmem | hmem
        · exact absurd hmem (hpongs (hreplies ▸ List.prefix_rfl))
        · exact close_answers (by omega) hok hvf h8 hlegalrest.1.1 hfitsrest.1 hmem hcode

/-- The sum that is compared with the limit does not wrap. -/
theorem length_sum (hlimit : cfg.limit < 2 ^ 63) {t : EventContext × Io} {rx : Rx} {d : Dec}
    {look : List UInt8} (hl : Listens cfg t rx d look) (hb : rx.Bounded cfg) {iocb : Iocb}
    (hgiven : (frameRecv t.1.frameCtx t.2).1 = .ok iocb)
    (hbits : badFrameBits (fed t).1 iocb = false) {c : EventContext}
    (hnew : recvNewFrame (fed t).1 iocb = some (c, true)) :
    c.curImsg.msgLength + iocb.payloadLength < 2 ^ 64 := by
  obtain ⟨bs, -, -, -, hcases⟩ := frameRecv_step hl.ready t.2
  rw [hgiven] at hcases
  rcases hcases with ⟨h, -⟩ | ⟨h, -⟩ | ⟨h, off, data, d', look', hp, heq, -⟩
  · cases h
  · cases h
  · cases heq
    obtain ⟨hdr, raw, -, henter, hv, rfl, hle, hempty, -⟩ := takePiece_piece hl.ready.ok hp
    obtain ⟨hexpects, -⟩ := hl.place.expects henter hle hempty
    obtain ⟨hs, hstate⟩ : Models cfg (fed t).1 rx := hl.models.congr rfl rfl
    have hok := (badFrameBits_iff hs h (h.mask off raw)).not.1 (by simp [hbits])
    rw [not_or, not_not] at hok
    cases hframe : rx.frame with
    | some f =>
      simp only [Rx.Expects, hframe] at hexpects hstate
      obtain ⟨rfl, -⟩ := hexpects
      obtain ⟨hi, hpos, -⟩ := hstate
      rw [recvNewFrame_inside hi hpos] at hnew
      cases hnew
    | none =>
      simp only [hframe] at hstate
      have hbetween := recvNewFrame_between hstate hok.1 (h.mask off raw)
      cases hbel : belongs rx.waiting h.opcode with
      | none =>
        simp only [hbel] at hbetween
        rw [hnew] at hbetween
        cases hbetween
      | some y =>
        obtain ⟨k, rest⟩ := y
        simp only [hbel] at hbetween
        obtain ⟨c', hc', -, ho⟩ := hbetween
        rw [hnew] at hc'
        cases hc'
        obtain ⟨hk, -⟩ := hb.of_belongs hbel
        have hlength : c.curImsg.msgLength = k.length := ho.bears.length
        have hpayload : (h.iocb (h.mask off raw)).payloadLength = h.length := rfl
        have hsmall := hv.1
        rw [hlength, hpayload]
        omega

end

/-- The status code of a Close that is queued. -/
theorem statusOf_closeBody (code : Nat) (reason : List UInt8) :
    statusOf (closeBody (UInt16.ofNat code) reason) = code % 2 ^ 16 := by
  have hcode : (UInt16.ofNat code).toNat = code % 2 ^ 16 := UInt16.toNat_ofNat'
  have htwo : (beBytes 2 (code % 2 ^ 16)).length = 2 := length_beBytes 2 _
  unfold closeBody
  by_cases h0 : UInt16.ofNat code = 0
  · rw [if_pos h0, ← hcode, h0]
    rfl
  · rw [if_neg h0, hcode, statusOf, if_pos (by rw [List.length_append]; omega),
      List.take_left' htwo]
    exact beVal_beBytes 2 _ (Nat.mod_lt _ (by decide))

/-- A Close that is queued answers something. -/
theorem mem_queued_close {replies : List Reply} {body : List UInt8}
    (h : QueuedMsg.msg ⟨connectionClose, body⟩ ∈ replies.map Reply.queued) :
    ∃ code reason, Reply.close code reason ∈ replies ∧ statusOf body = code % 2 ^ 16 := by
  obtain ⟨r, hr, heq⟩ := List.mem_map.1 h
  cases r with
  | pong msg => cases heq
  | close code reason =>
    cases heq
    exact ⟨code, reason, hr, statusOf_closeBody code reason⟩

/-- **The limit is exact.**  The first frame with which a message becomes longer than
the limit, or which is itself longer in no-buffering mode, makes `wslay_event_recv`
queue a Close with the code 1009 and disable reading; nobody has heard of the frame and
nothing of it has been stored.  No message longer than the limit is ever delivered.  If
no message is longer, a Close with the code 1009 is queued only as the answer to one
that has been received.  And the sum that is compared with the limit does not wrap. -/
theorem limit_exact (server : Bool) (callbacks : EventCallbacks) (noBuffering : Bool)
    (limit : Nat) (hlimit : limit < 2 ^ 63) (io : Io) (hcalm : io.Calm) (n : Nat) :
    let cfg := RxConfig.of server callbacks noBuffering limit
    let s₀ := (configured server callbacks noBuffering limit, io)
    let s := recvRun s₀ n
    (∀ pre f, Overlong server noBuffering limit pre f (pendingOctets io.recvs) →
      let framing := ((Assembly.idle.along (Assembly.callsFor cfg) pre).flatMap
        Call.framing).filter callbacks.shows
      s.2.calls.flatMap Call.framing <+: framing ∧
      (io.recvs.length < n → s.1.readEnabled = false ∧ s.2.calls.flatMap Call.framing = framing ∧
        s.2.queued = (pre.flatMap Assembly.pongOf ++
          [Reply.close codeMessageTooBig []]).map Reply.queued ∧
        ∃ m t, Loop.Reaches recvPass (recvRun s₀ m) t ∧ t.1.readEnabled = true ∧
          Models cfg t.1 ((Assembly.idle.afterAll pre).rx cfg) ∧
          recvPass t = .leave 0 s ∧ SameChunks t.1 s.1)) ∧
    (∀ c ∈ s.2.calls, c.Within limit) ∧
    (∀ fs tail, (∀ f ∈ fs, f.header.Valid) → Assembly.idle.All (Assembly.Legal server) fs →
      Assembly.idle.All (Assembly.Short noBuffering limit) fs →
      pendingOctets io.recvs ++ tail = fs.flatMap Frame.encode →
      ∀ body, .msg ⟨connectionClose, body⟩ ∈ s.2.queued → statusOf body = codeMessageTooBig →
        s.1.closeStatus.received = true ∧ s.1.statusCodeRecv = codeMessageTooBig) ∧
    (∀ t, Loop.Reaches recvPass s t → t.1.readEnabled = true →
      ∀ iocb c, (frameRecv t.1.frameCtx t.2).1 = .ok iocb → badFrameBits (fed t).1 iocb = false →
        recvNewFrame (fed t).1 iocb = some (c, true) →
        c.curImsg.msgLength + iocb.payloadLength < 2 ^ 64) := by
  intro cfg s₀ s
  have hruns : Runs cfg true s₀ .fresh .head [] :=
    configured_runs server callbacks noBuffering limit hcalm
  obtain ⟨new, items, d', look', ht⟩ := recvRun_trace hruns n
  have hst : Stands callbacks (Rx.fresh.run true cfg items) s := ht.follows.stands hcalm
  refine ⟨fun pre f hlong => ?_, ?_, ?_, ?_⟩
  · intro framing
    have hlong' : Overlong cfg.server cfg.noBuffering cfg.limit pre f (pendingOctets io.recvs) :=
      hlong
    refine ⟨?_, fun hn => ?_⟩
    · have hprefix := hlong'.prefix_calls hlimit ht ht.pending.symm
      rw [hst.calls, flatMap_framing_filter]
      exact hprefix.filter _
    · obtain ⟨⟨new, items, d', look', ht, halike⟩, hpass⟩ := hlong'.run hlimit hruns hn
      have hst : Stands callbacks (Rx.fresh.run true cfg items) s := ht.follows.stands hcalm
      refine ⟨?_, ?_, ?_, hpass⟩
      · rw [hst.enabled, halike.fate]
        rfl
      · rw [hst.calls, flatMap_framing_filter, halike.calls]
        rfl
      · rw [hst.queued, halike.replies]
        rfl
  · intro c hc
    rw [hst.calls] at hc
    exact ((Rx.Bounded.fresh cfg).run true items).1 c (List.mem_filter.1 hc).1
  · intro fs tail hv hlegal hshort hstream body hmem hbody
    rw [hst.queued] at hmem
    obtain ⟨code, reason, hmem, hcode⟩ := mem_queued_close hmem
    have hmore : new ++ (pendingOctets s.2.recvs ++ tail) = fs.flatMap Frame.encode := by
      rw [← List.append_assoc, ← ht.pending]
      exact hstream
    have hheard := short_answers hlimit hv hlegal hshort ht hmore hmem
      (hcode.symm.trans hbody)
    refine ⟨?_, ?_⟩
    · rw [hst.heard, hheard]
      rfl
    · rw [hst.code, hheard]
      rfl
  · intro t hreach hon iocb c hgiven hbits hnew
    obtain ⟨new, items, d', look', ht⟩ := recvRun_reaches hruns n hreach
    cases hfate : (Rx.fresh.run true cfg items).fate with
    | off heard r =>
      rw [ht.follows.enabled, hfate] at hon
      cases hon
    | live rx =>
      have hb := ((Rx.Bounded.fresh cfg).run true items).2 rx hfate
      exact length_sum hlimit (ht.listens rx hfate).1 hb hgiven hbits hnew

/-- A text of three octets, and one of four, with a Ping between its frames. -/
def growingText : List Frame :=
  [⟨true, 0, 1, none, [0x41, 0x42, 0x43]⟩, ⟨false, 0, 1, none, [0x44, 0x45]⟩,
    ⟨true, 0, 9, none, [0x70]⟩]

/-- The frame with which the second text becomes too long. -/
def lastPart : Frame := ⟨true, 0, 0, none, [0x46, 0x47]⟩

theorem limit_exact_growingText :
    let s := recvRun (configured false ⟨true, true, true, true⟩ false 3,
      { recvs := [.data ((growingText ++ [lastPart]).flatMap Frame.encode)] }) 2
    s.1.readEnabled = false ∧
      s.2.queued = [.msg ⟨Wslay.pong, [0x70]⟩, .msg ⟨connectionClose, [0x03, 0xf1]⟩] := by
  have hlegal : Assembly.idle.All (Assembly.Legal false)
      (growingText ++ [lastPart]) := by
    refine ⟨⟨rfl, fun _ => ?_⟩, ⟨rfl, fun _ => ?_⟩, ⟨rfl, fun h => ?_⟩, ⟨rfl, fun _ => ?_⟩, trivial⟩
    · rw [if_pos rfl]
      decide
    · rw [if_neg (by decide)]
      exact ⟨[], by decide⟩
    · cases h
    · change if true = true then _ else _
      rw [if_pos rfl]
      decide
  have hshort : Assembly.idle.All (Assembly.Short false 3) growingText := by
    unfold Assembly.Short
    exact ⟨by decide, by decide, by decide, trivial⟩
  have hlong : Overlong false false 3 growingText lastPart
      (pendingOctets [.data ((growingText ++ [lastPart]).flatMap
        Frame.encode)]) :=
    ⟨by decide, by decide, hlegal, hshort, by decide, [0x46, 0x47], [], [], rfl, fun _ => rfl, rfl⟩
  have hcalm : Io.Calm { recvs := [.data
      ((growingText ++ [lastPart]).flatMap Frame.encode)] } :=
    ⟨rfl, fun h => (by cases h), ⟨Or.inl rfl, fun e he => (by simp at he)⟩, rfl, rfl, rfl⟩
  obtain ⟨-, hend⟩ := (limit_exact false ⟨true, true, true, true⟩ false 3 (by decide) _ hcalm
    2).1 growingText lastPart hlong
  obtain ⟨hoff, -, hqueued, -⟩ := hend (by decide)
  exact ⟨hoff, hqueued⟩

/-- A peer may close with the code 1009, which is echoed. -/
theorem closeTooBig_echoed :
    let f : Frame := ⟨true, 0, 8, none, [0x03, 0xf1]⟩
    let s := recvRun (configured false ⟨true, true, true, true⟩ false 1000,
      { recvs := [.data f.encode] }) 1
    f.header.Valid ∧ Assembly.idle.Legal false f ∧ Assembly.idle.Short false 1000 f ∧
      QueuedMsg.msg ⟨connectionClose, [0x03, 0xf1]⟩ ∈ s.2.queued ∧
      statusOf [0x03, 0xf1] = codeMessageTooBig := by
  intro f s
  refine ⟨by decide, ⟨rfl, fun h => (by cases h)⟩, ?_, by decide, by decide⟩
  unfold Assembly.Short
  decide

end Wslay
