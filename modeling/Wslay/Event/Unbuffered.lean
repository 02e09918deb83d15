import Wslay.Event.Cuts

/-!
# With and without buffering

`WSLAY_CONFIG_NO_BUFFERING` leaves the payload of data messages to
`on_frame_recv_chunk_callback`.  A receiver in that mode is the image of one that
buffers: it does the same at every piece, but delivers data messages without a body.
What has been left out can be put together again from the chunks.

* `Rx.bare` — what a receiver that does not buffer keeps.
* `Rx.react_bare` — it does the same with every piece.
* `rebuild` — the bodies, from the chunks.
-/

namespace Wslay

/-! ## What is kept without buffering -/

/-- The same settings, in no-buffering mode. -/
def RxConfig.unbuffered (cfg : RxConfig) : RxConfig := { cfg with noBuffering := true }

/-- Of a data message nothing is kept but what its text waits for. -/
def Draft.bare (k : Draft) : Draft :=
  if 8 ≤ k.opcode.val then k else { k with body := [], length := 0 }

def Progress.bare (f : Progress) : Progress := { f with draft := f.draft.bare }

def Rx.bare (rx : Rx) : Rx := ⟨rx.waiting.map Draft.bare, rx.frame.map Progress.bare⟩

/-- A data message is delivered without its body. -/
def Call.bare : Call → Call
  | .msgRecv rsv opcode msg code =>
    .msgRecv rsv opcode (if isCtrlFrame opcode then msg else []) code
  | c => c

def Verdict.bare : Verdict → Verdict
  | .more rx => .more rx.bare
  | .done opcode msg rx => .done opcode (if 8 ≤ opcode.val then msg else []) rx.bare
  | v => v

def Reaction.bare (R : Reaction) : Reaction := ⟨R.calls.map Call.bare, R.verdict.bare⟩

def Fate.bare : Fate → Fate
  | .live rx => .live rx.bare
  | f => f

def Report.bare (R : Report) : Report := ⟨R.calls.map Call.bare, R.replies, R.fate.bare⟩

@[simp] theorem Draft.bare_opcode (k : Draft) : k.bare.opcode = k.opcode := by
  unfold Draft.bare
  split_ifs <;> rfl

@[simp] theorem Draft.bare_text (k : Draft) : k.bare.text = k.text := by
  unfold Draft.bare
  split_ifs <;> rfl

theorem Draft.bare_ctrl {k : Draft} (h : 8 ≤ k.opcode.val) : k.bare = k := if_pos h

theorem Draft.bare_data {k : Draft} (h : ¬ 8 ≤ k.opcode.val) :
    k.bare = { k with body := [], length := 0 } := if_neg h

theorem Draft.bare_start (opcode : Fin 16) : (Draft.start opcode).bare = .start opcode := by
  unfold Draft.bare
  split_ifs <;> rfl

@[simp] theorem Draft.bare_scan (k : Draft) (skip : Nat) (data : List UInt8) :
    k.bare.scan skip data = k.scan skip data := by
  simp only [Draft.scan, Draft.bare_opcode, Draft.bare_text]

/-! ## What is kept with buffering -/

/-- Everything that has come of the message is kept, and `missing` octets of it are still
to come; the message keeps to the limit. -/
structure Draft.Keeps (limit : Nat) (k : Draft) (missing : Nat) : Prop where
  length : k.length = k.body.length + missing
  le : k.length ≤ limit

/-- The receiver keeps everything. -/
structure Rx.Keeps (cfg : RxConfig) (rx : Rx) : Prop where
  waiting : ∀ k, rx.waiting = some k → ¬ 8 ≤ k.opcode.val ∧ k.Keeps cfg.limit 0
  frame : ∀ f, rx.frame = some f → f.header.Valid ∧ f.off ≤ f.header.length ∧
    (8 ≤ f.header.opcode.val ↔ 8 ≤ f.draft.opcode.val) ∧
      f.draft.Keeps cfg.limit (f.header.length - f.off)

theorem Rx.Keeps.fresh (cfg : RxConfig) : Rx.Keeps cfg .fresh :=
  ⟨fun _ h => (by cases h), fun _ h => (by cases h)⟩

section

variable {cfg : RxConfig} {q : Bool} {rx : Rx}

theorem RxConfig.buffers_all (hbuf : cfg.noBuffering = false) (opcode : Fin 16) :
    cfg.buffers opcode = true := by
  unfold RxConfig.buffers
  rw [hbuf]
  rfl

theorem RxConfig.buffers_unbuffered (opcode : Fin 16) :
    cfg.unbuffered.buffers opcode = decide (8 ≤ opcode.val) := rfl

/-- One more frame. -/
theorem Draft.bare_extend (hbuf : cfg.noBuffering = false) (k : Draft) (h : Header)
    (hkind : 8 ≤ h.opcode.val ↔ 8 ≤ k.opcode.val) :
    (k.extend cfg h).bare = k.bare.extend cfg.unbuffered h := by
  unfold Draft.extend
  rw [if_pos (RxConfig.buffers_all hbuf _), RxConfig.buffers_unbuffered]
  by_cases hc : 8 ≤ k.opcode.val
  · rw [if_pos (decide_eq_true (hkind.2 hc))]
    simp only [Draft.bare, if_pos hc]
  · have hnot : ¬ decide (8 ≤ h.opcode.val) = true := by
      simpa using fun h8 => hc (hkind.1 h8)
    rw [if_neg hnot]
    simp only [Draft.bare, if_neg hc]

/-- More of the payload. -/
theorem Progress.bare_advance (hbuf : cfg.noBuffering = false) (f : Progress) (data : List UInt8)
    (text : List Utf8.Range) (hkind : 8 ≤ f.header.opcode.val ↔ 8 ≤ f.draft.opcode.val) :
    (f.advance cfg data text).bare = f.bare.advance cfg.unbuffered data text := by
  unfold Progress.advance Progress.bare
  rw [if_pos (RxConfig.buffers_all hbuf _), RxConfig.buffers_unbuffered]
  by_cases hc : 8 ≤ f.draft.opcode.val
  · have hd : decide (8 ≤ f.header.opcode.val) = true := decide_eq_true (hkind.2 hc)
    simp only [hd, if_true, Draft.bare, if_pos hc]
  · have hd : decide (8 ≤ f.header.opcode.val) = false :=
      decide_eq_false fun h8 => hc (hkind.1 h8)
    simp only [hd, Draft.bare, if_neg hc, Bool.false_eq_true, if_false]

/-- The message that a frame belongs to. -/
theorem belongs_bare (waiting : Option Draft) (opcode : Fin 16) :
    belongs (waiting.map Draft.bare) opcode =
      (belongs waiting opcode).map fun x => (x.1.bare, x.2.map Draft.bare) := by
  unfold belongs
  cases waiting with
  | none =>
    simp only [Option.map_none]
    split_ifs
    · simp [Draft.bare_start]
    · rfl
  | some k =>
    simp only [Option.map_some]
    split_ifs <;> simp [Draft.bare_start]

/-- Its kind is that of the frame. -/
theorem Rx.Keeps.of_belongs (hk : rx.Keeps cfg) {opcode : Fin 16} {k : Draft}
    {rest : Option Draft} (hb : belongs rx.waiting opcode = some (k, rest)) :
    (8 ≤ opcode.val ↔ 8 ≤ k.opcode.val) ∧ k.Keeps cfg.limit 0 ∧
      ∀ k', rest = some k' → ¬ 8 ≤ k'.opcode.val ∧ k'.Keeps cfg.limit 0 := by
  have hstart : (Draft.start opcode).Keeps cfg.limit 0 := ⟨rfl, Nat.zero_le _⟩
  unfold belongs at hb
  cases hw : rx.waiting with
  | none =>
    simp only [hw] at hb
    split_ifs at hb
    cases hb
    exact ⟨Iff.rfl, hstart, fun k' h => by cases h⟩
  | some w =>
    simp only [hw] at hb
    split_ifs at hb with h0 hctrl
    · cases hb
      obtain ⟨hdata, hkeeps⟩ := hk.waiting k hw
      subst h0
      exact ⟨⟨fun h => absurd h (by decide), fun h => absurd h hdata⟩, hkeeps,
        fun k' h => by cases h⟩
    · cases hb
      refine ⟨Iff.rfl, hstart, ?_⟩
      rintro k' ⟨⟩
      exact hk.waiting w hw

/-- The frame that a piece belongs to. -/
theorem Rx.enter_bare (hbuf : cfg.noBuffering = false) (hlimit : cfg.limit < 2 ^ 63)
    (hk : rx.Keeps cfg) {h : Header} (hv : h.Valid) :
    match rx.enter cfg h with
    | .ok (calls, f, waiting) =>
      rx.bare.enter cfg.unbuffered h = .ok (calls, f.bare, waiting.map Draft.bare) ∧
        Rx.Keeps cfg ⟨waiting, some f⟩
    | .error code => code ≠ codeMessageTooBig → rx.bare.enter cfg.unbuffered h = .error code := by
  have hlen : h.length < 2 ^ 63 := hv.1
  unfold Rx.enter
  cases hf : rx.frame with
  | some f =>
    have hbare : rx.bare.frame = some f.bare := by
      rw [Rx.bare, hf]
      rfl
    simp only [hbare]
    refine ⟨rfl, hk.waiting, ?_⟩
    rintro g ⟨⟩
    exact hk.frame f hf
  | none =>
    have hbare : rx.bare.frame = none := by
      rw [Rx.bare, hf]
      rfl
    have hwait : rx.bare.waiting = rx.waiting.map Draft.bare := rfl
    simp only [hbare, hwait, Rx.admits, belongs_bare]
    by_cases hreject : h.rsv ≠ 0 ∨ h.key.isSome ≠ cfg.server
    · have hreject' : h.rsv ≠ 0 ∨ h.key.isSome ≠ cfg.unbuffered.server := hreject
      simp only [if_pos hreject, if_pos hreject']
      intro _
      trivial
    · have hreject' : ¬ (h.rsv ≠ 0 ∨ h.key.isSome ≠ cfg.unbuffered.server) := hreject
      simp only [if_neg hreject, if_neg hreject']
      cases hb : belongs rx.waiting h.opcode with
      | none =>
        intro _
        trivial
      | some x =>
        obtain ⟨k, rest⟩ := x
        obtain ⟨hkind, hkeeps, hrest⟩ := hk.of_belongs hb
        have hk63 := hkeeps.le
        have hexact : (k.length + h.length) % 2 ^ 64 = k.length + h.length :=
          Nat.mod_eq_of_lt (by omega)
        simp only [Option.map_some, hexact]
        by_cases hbig : cfg.limit < k.length + h.length
        · simp only [if_pos hbig]
          intro hne
          exact absurd rfl hne
        · have hbare' : k.bare.length ≤ k.length := by
            unfold Draft.bare
            split_ifs
            · exact Nat.le_refl _
            · exact Nat.zero_le _
          have hsmall : ¬ cfg.unbuffered.limit < (k.bare.length + h.length) % 2 ^ 64 := by
            have hmod : (k.bare.length + h.length) % 2 ^ 64 = k.bare.length + h.length :=
              Nat.mod_eq_of_lt (by omega)
            change ¬ cfg.limit < _
            omega
          simp only [if_neg hbig, if_neg hsmall]
          refine ⟨?_, fun k' hk' => hrest k' hk', ?_⟩
          · rw [← Draft.bare_extend hbuf k h hkind]
            rfl
          · rintro f ⟨⟩
            refine ⟨hv, Nat.zero_le _, ?_, ?_⟩
            · rw [Draft.extend, if_pos (RxConfig.buffers_all hbuf _)]
              exact hkind
            · rw [Draft.extend, if_pos (RxConfig.buffers_all hbuf _), hexact]
              have hsum := hkeeps.length
              refine ⟨?_, by change k.length + h.length ≤ cfg.limit; omega⟩
              change k.length + h.length = k.body.length + (h.length - 0)
              omega

/-! ## A piece -/

/-- What comes is kept. -/
theorem Rx.Keeps.advance (hbuf : cfg.noBuffering = false) {f : Progress} {waiting : Option Draft}
    (hk : Rx.Keeps cfg ⟨waiting, some f⟩) {data : List UInt8}
    (hle : f.off + data.length ≤ f.header.length) (text : List Utf8.Range) :
    Rx.Keeps cfg ⟨waiting, some (f.advance cfg data text)⟩ := by
  obtain ⟨hv, hoff, hkind, hkeeps⟩ := hk.frame f rfl
  refine ⟨hk.waiting, ?_⟩
  rintro g ⟨⟩
  refine ⟨hv, hle, hkind, ?_, hkeeps.le⟩
  have hsum := hkeeps.length
  unfold Progress.advance
  rw [if_pos (RxConfig.buffers_all hbuf _)]
  change f.draft.length = (f.draft.body ++ data).length + (f.header.length - (f.off + data.length))
  rw [List.length_append]
  omega

/-- A message that is complete has been kept. -/
theorem Draft.Keeps.gather {k : Draft} (hk : k.Keeps cfg.limit 0) : k.gather = some k.body := by
  have hlen : k.length = k.body.length := hk.length
  unfold Draft.gather
  by_cases h0 : k.length = 0
  · rw [if_pos h0, List.eq_nil_of_length_eq_zero (hlen.symm.trans h0)]
  · rw [if_neg h0, if_pos hlen.symm]

/-- The verdict on a complete message. -/
theorem Draft.bare_verdict {k : Draft} (hk : k.Keeps cfg.limit 0) (waiting : Option Draft) :
    k.bare.verdict cfg.unbuffered (waiting.map Draft.bare) = (k.verdict cfg waiting).bare := by
  have hdelivers : cfg.unbuffered.delivers = cfg.delivers := rfl
  unfold Draft.verdict
  rw [hdelivers, Draft.bare_opcode]
  by_cases hd : (cfg.delivers || k.opcode == 8 || k.opcode == 9) = true
  · rw [if_pos hd, if_pos hd, hk.gather]
    by_cases hc : 8 ≤ k.opcode.val
    · rw [Draft.bare_ctrl hc, hk.gather]
      simp only
      split_ifs with hbad
      · rfl
      · simp only [Verdict.bare, if_pos hc]
        rfl
    · have h8 : k.opcode ≠ 8 := by
        rintro h
        rw [h] at hc
        exact hc (by decide)
      have hgather : k.bare.gather = some [] := by
        rw [Draft.bare_data hc]
        exact if_pos rfl
      rw [hgather]
      simp only [if_neg fun h : k.opcode = 8 ∧ _ => h8 h.1, Verdict.bare, if_neg hc]
      rfl
  · rw [if_neg hd, if_neg hd]
    simp only [Verdict.bare, ite_self]
    rfl

/-- The end of a frame. -/
theorem Progress.bare_finish {f : Progress} (hk : f.draft.Keeps cfg.limit 0)
    (waiting : Option Draft) :
    f.bare.finish cfg.unbuffered (waiting.map Draft.bare) = (f.finish cfg waiting).bare := by
  have hheader : f.bare.header = f.header := rfl
  have hdraft : f.bare.draft = f.draft.bare := rfl
  unfold Progress.finish
  rw [hheader, hdraft, Draft.bare_opcode, Draft.bare_text]
  split_ifs with hbad hfin
  · rfl
  · rw [Draft.bare_verdict hk]
    rfl
  · rfl

/-- **A piece of the frame in progress** comes to the same. -/
theorem Progress.bare_piece (hbuf : cfg.noBuffering = false) {f : Progress}
    {waiting : Option Draft} (hk : Rx.Keeps cfg ⟨waiting, some f⟩) {data : List UInt8}
    (hle : f.off + data.length ≤ f.header.length) (skip : Nat) :
    f.bare.piece skip cfg.unbuffered (waiting.map Draft.bare) data =
      (f.piece skip cfg waiting data).bare := by
  obtain ⟨hv, hoff, hkind, hkeeps⟩ := hk.frame f rfl
  have hscan : f.bare.draft.scan skip data = f.draft.scan skip data := Draft.bare_scan _ _ _
  unfold Progress.piece
  rw [hscan]
  cases hs : f.draft.scan skip data with
  | none => rfl
  | some text =>
    simp only [← Progress.bare_advance hbuf f data text hkind]
    have hsame : (f.advance cfg data text).bare.off = (f.advance cfg data text).off ∧
        (f.advance cfg data text).bare.header = (f.advance cfg data text).header := ⟨rfl, rfl⟩
    rw [hsame.1, hsame.2]
    split_ifs with hend
    · have hdone : (f.advance cfg data text).draft.Keeps cfg.limit 0 := by
        have hg := (hk.advance hbuf hle text).frame _ rfl
        rw [hend, Nat.sub_self] at hg
        exact hg.2.2.2
      rw [Progress.bare_finish hdone]
      rfl
    · rfl

/-- What the verdict leaves behind. -/
def Verdict.Keeps (cfg : RxConfig) : Verdict → Prop
  | .more rx => rx.Keeps cfg
  | .done _ _ rx => rx.Keeps cfg
  | _ => True

theorem Draft.verdict_keeps {k : Draft} {waiting : Option Draft}
    (hw : ∀ w, waiting = some w → ¬ 8 ≤ w.opcode.val ∧ w.Keeps cfg.limit 0) :
    (k.verdict cfg waiting).Keeps cfg := by
  have hrx : Rx.Keeps cfg ⟨waiting, none⟩ := ⟨hw, fun f h => by cases h⟩
  unfold Draft.verdict
  split_ifs
  · cases k.gather with
    | none => trivial
    | some msg =>
      simp only
      split_ifs
      · trivial
      · exact hrx
  · exact hrx

/-- After a piece everything is still kept. -/
theorem Progress.piece_keeps (hbuf : cfg.noBuffering = false) {f : Progress}
    {waiting : Option Draft} (hk : Rx.Keeps cfg ⟨waiting, some f⟩) {data : List UInt8}
    (hle : f.off + data.length ≤ f.header.length) (skip : Nat) :
    (f.piece skip cfg waiting data).verdict.Keeps cfg := by
  rcases f.piece_cases skip cfg waiting data with
    ⟨-, heq⟩ | ⟨text, -, ⟨hend, heq⟩ | ⟨-, heq⟩⟩
  · rw [heq]
    trivial
  · rw [heq]
    have hkg := hk.advance hbuf hle text
    obtain ⟨hv, -, hkind, hkeeps⟩ := hkg.frame _ rfl
    have hoff : (f.advance cfg data text).off = (f.advance cfg data text).header.length := hend
    rw [hoff, Nat.sub_self] at hkeeps
    rcases (f.advance cfg data text).finish_cases cfg waiting with
      h | ⟨-, h⟩ | ⟨hfin, h⟩ <;> rw [h]
    · trivial
    · exact Draft.verdict_keeps hkg.waiting
    · refine ⟨?_, fun g hg => by cases hg⟩
      rintro k ⟨⟩
      refine ⟨fun h8 => ?_, hkeeps⟩
      -- a control frame would be complete in itself
      have hctrl : (f.advance cfg data text).header.isCtrl = true := decide_eq_true (hkind.2 h8)
      rw [(hv.2 hctrl).1] at hfin
      cases hfin
  · rw [heq]
    exact hk.advance hbuf hle text

/-! ## A report -/

theorem msgCall_bare (opcode : Fin 16) (msg : List UInt8) :
    (msgCall opcode msg).bare = msgCall opcode (if 8 ≤ opcode.val then msg else []) := by
  have hc := isCtrlFrame_ofNat opcode
  by_cases h8 : 8 ≤ opcode.val
  · rw [decide_eq_true h8] at hc
    simp only [msgCall, Call.bare, hc, if_true, if_pos h8]
  · have hne : opcode ≠ 8 := by
      rintro rfl
      exact h8 (by decide)
    rw [decide_eq_false h8] at hc
    simp only [msgCall, Call.bare, hc, Bool.false_eq_true, if_false, if_neg h8, if_neg hne]

/-- The report of the reaction without buffering. -/
theorem Reaction.report_bare (R : Reaction) : R.bare.report q = (R.report q).bare := by
  obtain ⟨calls, v⟩ := R
  cases v with
  | more rx => rfl
  | reject code => rfl
  | overflow => rfl
  | done opcode msg rx =>
    have hcall := msgCall_bare opcode msg
    by_cases h8 : opcode = 8
    · subst h8
      have hmsg : (if 8 ≤ (8 : Fin 16).val then msg else []) = msg := if_pos (by decide)
      rw [hmsg] at hcall
      simp only [Reaction.report, Reaction.bare, Verdict.bare, hmsg]
      cases q with
      | true => simp [Report.bare, Fate.bare, hcall]
      | false => simp [Report.bare, Fate.bare]
    · by_cases h9 : opcode = 9
      · subst h9
        have hmsg : (if 8 ≤ (9 : Fin 16).val then msg else []) = msg := if_pos (by decide)
        rw [hmsg] at hcall
        have hne : ¬ (9 : Fin 16) = 8 := by decide
        simp only [Reaction.report, Reaction.bare, Verdict.bare, hmsg, if_neg hne]
        simp [Report.bare, Fate.bare, hcall]
      · simp [Reaction.report, Reaction.bare, Verdict.bare, Report.bare, Fate.bare, hcall, h8, h9]

/-- The frame goes on with a piece. -/
def Rx.Fits (cfg : RxConfig) (rx : Rx) : Item → Prop
  | .piece h data => h.Valid ∧ ∀ calls f waiting, rx.enter cfg h = .ok (calls, f, waiting) →
      f.off + data.length ≤ f.header.length
  | .malformed => True

/-- The item does not make a message too long. -/
def Rx.Takes (cfg : RxConfig) (rx : Rx) : Item → Prop
  | .piece h _ => rx.enter cfg h ≠ .error codeMessageTooBig
  | .malformed => True

/-- **An item.**  Unless it makes a message too long, the receiver that does not buffer
does the same with it. -/
theorem Rx.react_bare (hbuf : cfg.noBuffering = false) (hlimit : cfg.limit < 2 ^ 63)
    (hk : rx.Keeps cfg) {i : Item} (hi : rx.Fits cfg i) (hshort : rx.Takes cfg i) :
    rx.bare.react true cfg.unbuffered i = (rx.react true cfg i).bare ∧
      ∀ rx', (rx.react true cfg i).fate = .live rx' → rx'.Keeps cfg := by
  cases i with
  | malformed => exact ⟨rfl, fun rx' h => by cases h⟩
  | piece h data =>
    obtain ⟨hv, hle⟩ := hi
    have henter := Rx.enter_bare hbuf hlimit hk hv
    cases he : rx.enter cfg h with
    | error code =>
      simp only [he] at henter
      have hcode : code ≠ codeMessageTooBig := by
        rintro rfl
        exact hshort he
      simp only [Rx.react, Rx.piece_error he, Rx.piece_error (henter hcode)]
      exact ⟨rfl, fun rx' h => by cases h⟩
    | ok x =>
      obtain ⟨calls, f, waiting⟩ := x
      simp only [he] at henter
      obtain ⟨hbare, hkf⟩ := henter
      have hfits := hle calls f waiting he
      have hcalls : calls.map Call.bare = calls := by
        unfold Rx.enter at he
        split at he
        · cases he
          rfl
        · split at he
          · cases he
          · cases he
            rfl
      simp only [Rx.react, Rx.piece_ok he, Rx.piece_ok hbare,
        Progress.bare_piece hbuf hkf hfits 2]
      refine ⟨?_, ?_⟩
      · rw [← Reaction.report_bare]
        simp only [Reaction.bare, List.map_append, hcalls]
      · intro rx' hlive
        have hkeeps := Progress.piece_keeps hbuf hkf hfits 2
        rcases Reaction.report_live hlive with hmore | ⟨opcode, msg, hdone⟩
        · simp only at hmore
          rw [hmore] at hkeeps
          exact hkeeps
        · simp only at hdone
          rw [hdone] at hkeeps
          exact hkeeps

end

/-! ## The bodies, from the chunks -/

/-- What has come of the data message in progress, and whether the frame in progress is
of a control message. -/
structure Gathered where
  body : List UInt8
  ctrl : Bool
  deriving DecidableEq, Repr

/-- One call, with the body that has been gathered. -/
def Call.fill (st : Gathered) : Call → Call
  | .msgRecv rsv opcode msg code =>
    .msgRecv rsv opcode (if isCtrlFrame opcode then msg else st.body) code
  | c => c

/-- What is gathered from one call. -/
def Gathered.after (st : Gathered) : Call → Gathered
  | .frameRecvStart _ _ opcode _ => { st with ctrl := isCtrlFrame opcode }
  | .frameRecvChunk data => { st with body := if st.ctrl then st.body else st.body ++ data }
  | .frameRecvEnd => st
  | .msgRecv _ opcode _ _ => { st with body := if isCtrlFrame opcode then st.body else [] }

/-- What is gathered from calls one after the other. -/
def Gathered.afterAll (st : Gathered) (calls : List Call) : Gathered := calls.foldl .after st

/-- **The calls with the bodies that the chunks make up.** -/
def rebuild : Gathered → List Call → List Call
  | _, [] => []
  | st, c :: cs => c.fill st :: rebuild (st.after c) cs

theorem rebuild_append (st : Gathered) (cs ds : List Call) :
    rebuild st (cs ++ ds) = rebuild st cs ++ rebuild (st.afterAll cs) ds := by
  induction cs generalizing st with
  | nil => rfl
  | cons c cs ih => exact congrArg (c.fill st :: ·) (ih (st.after c))

theorem Gathered.afterAll_append (st : Gathered) (cs ds : List Call) :
    st.afterAll (cs ++ ds) = (st.afterAll cs).afterAll ds := List.foldl_append

/-- The calls of the frame callbacks stay as they are. -/
theorem rebuild_frames {cs : List Call} (hcs : ∀ c ∈ cs, c.isMsg = false) (st : Gathered) :
    cs.map Call.bare = cs ∧ rebuild st cs = cs := by
  induction cs generalizing st with
  | nil => exact ⟨rfl, rfl⟩
  | cons c cs ih =>
    obtain ⟨hmap, hbuild⟩ := ih (fun d hd => hcs d (List.mem_cons_of_mem _ hd)) (st.after c)
    have hc := hcs c (List.mem_cons_self ..)
    cases c with
    | msgRecv rsv opcode msg code => cases hc
    | _ =>
      refine ⟨?_, ?_⟩
      · rw [List.map_cons, hmap]
        rfl
      · rw [rebuild, hbuild]
        rfl

/-- The chunks have made up what a receiver that buffers has kept. -/
def Gathered.Of (st : Gathered) (rx : Rx) : Prop :=
  match rx.frame with
  | none => st.body = (rx.waiting.map Draft.body).getD []
  | some f => st.ctrl = decide (8 ≤ f.draft.opcode.val) ∧
      st.body = if 8 ≤ f.draft.opcode.val then (rx.waiting.map Draft.body).getD []
        else f.draft.body

theorem Gathered.of_fresh (ctrl : Bool) : Gathered.Of ⟨[], ctrl⟩ .fresh := rfl

section

variable {cfg : RxConfig} {rx : Rx} {st : Gathered}

/-- At the beginning of a frame nothing has come of it yet. -/
theorem belongs_body {waiting rest : Option Draft} {opcode : Fin 16} {k : Draft}
    (hdata : ∀ w, waiting = some w → ¬ 8 ≤ w.opcode.val)
    (hb : belongs waiting opcode = some (k, rest)) :
    (if 8 ≤ k.opcode.val then (rest.map Draft.body).getD [] else k.body) =
      (waiting.map Draft.body).getD [] := by
  unfold belongs at hb
  cases waiting with
  | none =>
    simp only at hb
    split_ifs at hb
    cases hb
    split_ifs <;> rfl
  | some w =>
    simp only at hb
    split_ifs at hb with h0 hctrl
    · cases hb
      rw [if_neg (hdata k rfl)]
      rfl
    · cases hb
      rw [if_pos (isKnownCtrl_ctrl hctrl : 8 ≤ (Draft.start opcode).opcode.val)]

/-- The call that announces a frame. -/
theorem Gathered.Of.enter (hst : st.Of rx) (hk : rx.Keeps cfg) {h : Header}
    {calls : List Call} {f : Progress} {waiting : Option Draft}
    (he : rx.enter cfg h = .ok (calls, f, waiting)) (hkf : Rx.Keeps cfg ⟨waiting, some f⟩) :
    (∀ c ∈ calls, c.isMsg = false) ∧ (st.afterAll calls).Of ⟨waiting, some f⟩ := by
  unfold Rx.enter at he
  unfold Gathered.Of at hst
  cases hf : rx.frame with
  | some g =>
    simp only [hf] at he hst
    cases he
    refine ⟨fun c hc => (by cases hc), ?_⟩
    exact hst
  | none =>
    simp only [hf] at he hst
    cases ha : Rx.admits cfg rx.waiting h with
    | error code => simp [ha] at he
    | ok x =>
      obtain ⟨g, rest⟩ := x
      simp only [ha, Except.ok.injEq, Prod.mk.injEq] at he
      obtain ⟨rfl, rfl, rfl⟩ := he
      obtain ⟨k, hb, rfl⟩ := admits_belongs ha
      obtain ⟨hopcode, hbody, -⟩ := k.extend_same cfg h
      obtain ⟨-, -, hkind, -⟩ := hkf.frame _ rfl
      refine ⟨?_, ?_, ?_⟩
      · intro c hc
        rw [List.mem_singleton.1 hc]
        rfl
      · change isCtrlFrame (UInt8.ofNat h.opcode.val) = _
        rw [isCtrlFrame_ofNat]
        exact decide_eq_decide.2 hkind
      · change st.body = if 8 ≤ (k.extend cfg h).opcode.val then _ else (k.extend cfg h).body
        rw [hopcode, hbody, hst]
        exact (belongs_body (fun w hw => (hk.waiting w hw).1) hb).symm

/-- The message is delivered with the body that the chunks make up. -/
theorem msgCall_fill (opcode : Fin 16) (msg : List UInt8) (st : Gathered) :
    (msgCall opcode msg).bare.fill st =
        msgCall opcode (if 8 ≤ opcode.val then msg else st.body) ∧
      st.after (msgCall opcode msg).bare =
        { st with body := if 8 ≤ opcode.val then st.body else [] } := by
  have hc := isCtrlFrame_ofNat opcode
  rw [msgCall_bare]
  by_cases h8 : 8 ≤ opcode.val
  · rw [decide_eq_true h8] at hc
    simp only [msgCall, Call.fill, Gathered.after, hc, if_true, if_pos h8, and_self]
  · have hne : opcode ≠ 8 := by
      rintro rfl
      exact h8 (by decide)
    rw [decide_eq_false h8] at hc
    simp only [msgCall, Call.fill, Gathered.after, hc, Bool.false_eq_true, if_false, if_neg h8,
      if_neg hne, and_self]

/-- A chunk. -/
theorem Gathered.Of.chunk (hbuf : cfg.noBuffering = false) {f : Progress}
    {waiting : Option Draft} (hst : st.Of ⟨waiting, some f⟩) (data : List UInt8)
    (text : List Utf8.Range) :
    (st.after (.frameRecvChunk data)).Of ⟨waiting, some (f.advance cfg data text)⟩ := by
  obtain ⟨hctrl, hbody⟩ := hst
  have hadvance : (f.advance cfg data text).draft.body = f.draft.body ++ data :=
    if_pos (RxConfig.buffers_all hbuf _)
  refine ⟨hctrl, ?_⟩
  change (if st.ctrl then st.body else st.body ++ data) = if 8 ≤ f.draft.opcode.val then _ else _
  by_cases h8 : 8 ≤ f.draft.opcode.val
  · rw [if_pos h8] at hbody ⊢
    rw [hctrl, decide_eq_true h8, if_pos rfl, hbody]
  · rw [if_neg h8] at hbody ⊢
    rw [hctrl, decide_eq_false h8, if_neg Bool.false_ne_true, hbody, hadvance]

/-- **The end of a frame.**  The chunks of a data message that is complete have made up
its body. -/
theorem Gathered.Of.finish (hdel : cfg.delivers = true) {f : Progress} {waiting : Option Draft}
    (hst : st.Of ⟨waiting, some f⟩) (hkeeps : f.draft.Keeps cfg.limit 0)
    (hs : Rx.Sound cfg ⟨waiting, some f⟩) (q : Bool) :
    rebuild st (((f.finish cfg waiting).report q).calls.map Call.bare) =
        ((f.finish cfg waiting).report q).calls ∧
      ∀ rx', ((f.finish cfg waiting).report q).fate = .live rx' →
        (st.afterAll (((f.finish cfg waiting).report q).calls.map Call.bare)).Of rx' := by
  obtain ⟨hctrl, hbody⟩ := hst
  rcases f.finish_cases cfg waiting with h | ⟨-, h⟩ | ⟨hfin, h⟩ <;> rw [h]
  · exact ⟨rfl, fun rx' h => by cases h⟩
  · -- the message is complete
    have hverdict : f.draft.verdict cfg waiting = .reject codeProtocolError ∨
        f.draft.verdict cfg waiting = .done f.draft.opcode f.draft.body ⟨waiting, none⟩ := by
      unfold Draft.verdict
      rw [hdel, Bool.true_or, Bool.true_or, if_pos rfl, hkeeps.gather]
      simp only
      split_ifs
      · exact Or.inl rfl
      · exact Or.inr rfl
    rcases hverdict with hv | hv <;> rw [hv]
    · exact ⟨rfl, fun rx' h => by cases h⟩
    · obtain ⟨hfill, hafter⟩ := msgCall_fill f.draft.opcode f.draft.body st
      have hsame : (if 8 ≤ f.draft.opcode.val then f.draft.body else st.body) = f.draft.body := by
        split_ifs with h8
        · rfl
        · rw [hbody, if_neg h8]
      rw [hsame] at hfill
      have hbuild : rebuild st ([Call.frameRecvEnd, msgCall f.draft.opcode f.draft.body].map
          Call.bare) = [.frameRecvEnd, msgCall f.draft.opcode f.draft.body] :=
        congrArg (fun c => [Call.frameRecvEnd, c]) hfill
      unfold Reaction.report
      simp only
      by_cases h8 : f.draft.opcode = 8
      · rw [if_pos h8]
        cases q with
        | true => exact ⟨hbuild, fun rx' h => by cases h⟩
        | false => exact ⟨rfl, fun rx' h => by cases h⟩
      · rw [if_neg h8]
        refine ⟨hbuild, ?_⟩
        rintro rx' ⟨⟩
        change (st.after (msgCall f.draft.opcode f.draft.body).bare).body = _
        rw [hafter]
        change (if 8 ≤ f.draft.opcode.val then st.body else []) = (waiting.map Draft.body).getD []
        by_cases hc : 8 ≤ f.draft.opcode.val
        · rw [if_pos hc, hbody, if_pos hc]
        · rw [if_neg hc]
          -- nothing waits behind a data message
          cases hw : waiting with
          | none => rfl
          | some w => exact absurd (hs.alone f rfl (by rw [hw]; exact Option.some_ne_none w)) hc
  · -- the message goes on
    refine ⟨rfl, ?_⟩
    rintro rx' ⟨⟩
    have hdata : ¬ 8 ≤ f.draft.opcode.val := by
      intro h8
      rw [((hs.frame f rfl).fin h8).1] at hfin
      cases hfin
    change st.body = f.draft.body
    rw [hbody, if_neg hdata]

/-- **A piece of the frame in progress.** -/
theorem Gathered.Of.piece (hbuf : cfg.noBuffering = false) (hdel : cfg.delivers = true)
    {f : Progress} {waiting : Option Draft} (hst : st.Of ⟨waiting, some f⟩)
    (hk : Rx.Keeps cfg ⟨waiting, some f⟩) (hs : Rx.Sound cfg ⟨waiting, some f⟩)
    {data : List UInt8} (hle : f.off + data.length ≤ f.header.length) (q : Bool) :
    rebuild st (((f.piece 2 cfg waiting data).report q).calls.map Call.bare) =
        ((f.piece 2 cfg waiting data).report q).calls ∧
      ∀ rx', ((f.piece 2 cfg waiting data).report q).fate = .live rx' →
        (st.afterAll (((f.piece 2 cfg waiting data).report q).calls.map Call.bare)).Of rx' := by
  rcases f.piece_cases 2 cfg waiting data with ⟨-, heq⟩ | ⟨text, -, ⟨hend, heq⟩ | ⟨-, heq⟩⟩
  · rw [heq]
    exact ⟨rfl, fun rx' h => by cases h⟩
  · rw [heq]
    have hkg := hk.advance hbuf hle text
    obtain ⟨-, -, -, hkeeps⟩ := hkg.frame _ rfl
    have hoff : (f.advance cfg data text).off = (f.advance cfg data text).header.length := hend
    rw [hoff, Nat.sub_self] at hkeeps
    have hsg : Rx.Sound cfg ⟨waiting, some (f.advance cfg data text)⟩ := by
      refine ⟨hs.waiting, ?_, ?_⟩
      · rintro g ⟨⟩
        exact (hs.frame f rfl).advance hle text
      · rintro g ⟨⟩ hw
        exact hs.alone f rfl hw
    obtain ⟨hbuild, hlive⟩ := (hst.chunk hbuf data text).finish hdel hkeeps hsg q
    have hfront := Reaction.report_append (q := q) [.frameRecvChunk data]
      ((f.advance cfg data text).finish cfg waiting)
    simp only [List.singleton_append] at hfront
    rw [hfront]
    exact ⟨congrArg (Call.frameRecvChunk data :: ·) hbuild, hlive⟩
  · rw [heq]
    refine ⟨rfl, ?_⟩
    rintro rx' ⟨⟩
    exact hst.chunk hbuf data text

/-- **An item.** -/
theorem Gathered.Of.react (hbuf : cfg.noBuffering = false) (hlimit : cfg.limit < 2 ^ 63)
    (hdel : cfg.delivers = true) (hst : st.Of rx) (hk : rx.Keeps cfg) (hs : rx.Sound cfg)
    {i : Item} (hi : rx.Fits cfg i) (q : Bool) :
    rebuild st ((rx.react q cfg i).calls.map Call.bare) = (rx.react q cfg i).calls ∧
      ∀ rx', (rx.react q cfg i).fate = .live rx' →
        (st.afterAll ((rx.react q cfg i).calls.map Call.bare)).Of rx' := by
  cases i with
  | malformed => exact ⟨rfl, fun rx' h => by cases h⟩
  | piece h data =>
    obtain ⟨hv, hle⟩ := hi
    have henter := Rx.enter_bare hbuf hlimit hk hv
    cases he : rx.enter cfg h with
    | error code =>
      rw [Rx.react, Rx.piece_error he]
      exact ⟨rfl, fun rx' h => by cases h⟩
    | ok x =>
      obtain ⟨calls, f, waiting⟩ := x
      simp only [he] at henter
      obtain ⟨hcalls, hst'⟩ := hst.enter hk he henter.2
      obtain ⟨hmap, hsame⟩ := rebuild_frames hcalls st
      obtain ⟨hbuild, hlive⟩ := hst'.piece hbuf hdel henter.2 (hs.enter hv he)
        (hle calls f waiting he) q
      rw [Rx.react, Rx.piece_ok he, Reaction.report_append]
      refine ⟨?_, ?_⟩
      · rw [List.map_append, hmap, rebuild_append, hsame, hbuild]
      · intro rx' hfate
        rw [List.map_append, hmap, Gathered.afterAll_append]
        exact hlive rx' hfate

end

end Wslay
