import Wslay.Event.Receiver

/-!
# Reports of the receiver

What comes of reading a sequence of pieces: the callbacks that are called, the
replies that are queued, and whether the receiver goes on.  When nothing can be
queued any more, no reply is, and the calls that would have queued one return
something else; this is the parameter `q`.

* `Report.andThen` — one report after the other.
* `Rx.react`, `Rx.run` — the report of one item, and of a sequence of them.
-/

namespace Wslay

/-- A message that `wslay_event_recv` queues by itself. -/
inductive Reply where
  | pong (msg : List UInt8)
  | close (code : Nat) (reason : List UInt8)
  deriving DecidableEq, Repr

/-- What has become of the receiver. -/
inductive Fate where
  /-- It goes on. -/
  | live (rx : Rx)
  /-- Reading is over, on account of a valid Close with the status code `heard` if
  there is one; `wslay_event_recv` returns `result`. -/
  | off (heard : Option Nat) (result : Int)
  deriving DecidableEq, Repr

/-- What comes of reading something. -/
structure Report where
  calls : List Call
  replies : List Reply
  fate : Fate
  deriving DecidableEq, Repr

namespace Report

/-- Nothing has been read. -/
def start (rx : Rx) : Report := ⟨[], [], .live rx⟩

/-- What comes of reading on. -/
def andThen (R : Report) (f : Rx → Report) : Report :=
  match R.fate with
  | .live rx => ⟨R.calls ++ (f rx).calls, R.replies ++ (f rx).replies, (f rx).fate⟩
  | .off _ _ => R

theorem andThen_live {R : Report} {rx : Rx} (h : R.fate = .live rx) (f : Rx → Report) :
    R.andThen f = ⟨R.calls ++ (f rx).calls, R.replies ++ (f rx).replies, (f rx).fate⟩ := by
  rw [andThen, h]

theorem andThen_off {R : Report} {heard : Option Nat} {result : Int}
    (h : R.fate = .off heard result) (f : Rx → Report) : R.andThen f = R := by
  rw [andThen, h]

@[simp] theorem start_andThen (rx : Rx) (f : Rx → Report) : (start rx).andThen f = f rx := by
  rw [andThen_live rfl, start, List.nil_append, List.nil_append]

@[simp] theorem andThen_start (R : Report) : R.andThen start = R := by
  cases h : R.fate with
  | live rx => rw [andThen_live h, start, List.append_nil, List.append_nil, ← h]
  | off heard result => exact andThen_off h _

theorem andThen_assoc (R : Report) (f g : Rx → Report) :
    (R.andThen f).andThen g = R.andThen fun rx => (f rx).andThen g := by
  cases h : R.fate with
  | off heard result => rw [andThen_off h, andThen_off h, andThen_off h]
  | live rx =>
    have hl : (R.andThen f).fate = (f rx).fate := by rw [andThen_live h]
    rw [andThen_live h (fun rx => (f rx).andThen g)]
    cases h' : (f rx).fate with
    | off heard result => rw [andThen_off (hl.trans h'), andThen_off h', andThen_live h]
    | live rx' =>
      rw [andThen_live (hl.trans h'), andThen_live h', andThen_live h, List.append_assoc,
        List.append_assoc]

theorem andThen_congr {R : Report} {f g : Rx → Report}
    (h : ∀ rx, R.fate = .live rx → f rx = g rx) : R.andThen f = R.andThen g := by
  cases hf : R.fate with
  | live rx => rw [andThen_live hf, andThen_live hf, h rx hf]
  | off heard result => rw [andThen_off hf, andThen_off hf]

end Report

/-- The report of a reaction. -/
def Reaction.report (q : Bool) (R : Reaction) : Report :=
  match R.verdict with
  | .more rx => ⟨R.calls, [], .live rx⟩
  | .reject code => ⟨R.calls, if q then [.close code []] else [], .off none (if q then 0 else 1)⟩
  | .overflow => ⟨R.calls, [], .off none Err.nomem.code⟩
  | .done opcode msg rx =>
    if opcode = 8 then
      if q then
        ⟨R.calls ++ [msgCall opcode msg], [.close (statusOf msg) (msg.drop 2)],
          .off (some (statusOf msg)) 0⟩
      else ⟨R.calls, [], .off (some (statusOf msg)) 1⟩
    else
      ⟨R.calls ++ [msgCall opcode msg], if opcode = 9 ∧ q = true then [.pong msg] else [], .live rx⟩

/-- Something that the receiver is handed. -/
inductive Item where
  | piece (h : Header) (data : List UInt8)
  | malformed
  deriving DecidableEq, Repr

/-- The report of one item. -/
def Rx.react (q : Bool) (cfg : RxConfig) (rx : Rx) : Item → Report
  | .piece h data => (rx.piece 2 cfg h data).report q
  | .malformed =>
    ⟨[], if q then [.close 0 []] else [], .off none (if q then Err.callbackFailure.code else 1)⟩

/-- The report of a sequence of items. -/
def Rx.run (q : Bool) (cfg : RxConfig) : Rx → List Item → Report
  | rx, [] => .start rx
  | rx, i :: is => (rx.react q cfg i).andThen fun rx => rx.run q cfg is

theorem Rx.run_append (q : Bool) (cfg : RxConfig) (rx : Rx) (is is' : List Item) :
    rx.run q cfg (is ++ is') = (rx.run q cfg is).andThen fun rx => rx.run q cfg is' := by
  induction is generalizing rx with
  | nil => exact (Report.start_andThen rx fun rx => rx.run q cfg is').symm
  | cons i is ih =>
    change (rx.react q cfg i).andThen (fun rx => rx.run q cfg (is ++ is')) =
      ((rx.react q cfg i).andThen fun rx => rx.run q cfg is).andThen fun rx => rx.run q cfg is'
    rw [Report.andThen_assoc]
    exact Report.andThen_congr fun rx _ => ih rx

/-- While the receiver goes on, it has queued Pongs at most. -/
def Report.OnlyPongs (R : Report) : Prop :=
  ∀ rx, R.fate = .live rx → ∀ r ∈ R.replies, ∃ msg, r = .pong msg

theorem Reaction.onlyPongs (q : Bool) (R : Reaction) : (R.report q).OnlyPongs := by
  intro rx hlive r hr
  unfold Reaction.report at hlive hr
  cases hv : R.verdict with
  | more rx' =>
    rw [hv] at hr
    cases hr
  | reject code =>
    rw [hv] at hlive
    cases hlive
  | overflow =>
    rw [hv] at hlive
    cases hlive
  | done opcode msg rx' =>
    rw [hv] at hlive hr
    simp only at hlive hr
    split_ifs at hlive hr
    · rw [List.mem_singleton] at hr
      exact ⟨msg, hr⟩
    · cases hr

theorem Report.OnlyPongs.andThen {R : Report} {f : Rx → Report} (h : R.OnlyPongs)
    (hf : ∀ rx, (f rx).OnlyPongs) : (R.andThen f).OnlyPongs := by
  intro rx hlive r hr
  cases hR : R.fate with
  | live rx' =>
    rw [andThen_live hR] at hlive hr
    rcases List.mem_append.1 hr with hr | hr
    · exact h rx' hR r hr
    · exact hf rx' rx hlive r hr
  | off heard result =>
    rw [andThen_off hR, hR] at hlive
    cases hlive

theorem Rx.run_onlyPongs (q : Bool) (cfg : RxConfig) (rx : Rx) (is : List Item) :
    (rx.run q cfg is).OnlyPongs := by
  induction is generalizing rx with
  | nil =>
    intro _ _ r hr
    cases hr
  | cons i is ih =>
    refine Report.OnlyPongs.andThen ?_ ih
    cases i with
    | piece h data => exact Reaction.onlyPongs q _
    | malformed =>
      intro rx' hlive
      cases hlive

end Wslay
