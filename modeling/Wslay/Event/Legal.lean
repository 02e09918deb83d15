import Wslay.Event.Fronts

/-!
# Legal frames

What the receiver makes of legal frames whose messages are no longer than the
limit, whether it keeps the messages or not.

* `Assembly.Legal`, `Assembly.Fits` — the frames in question.
* `Assembly.run_legal` — **they are taken, one after the other**.
-/

namespace Wslay

open Utf8 (read WellFormed)

namespace Assembly

/-- The reassembler after some frames. -/
def afterAll (a : Assembly) (fs : List Frame) : Assembly := fs.foldl after a

/-- `P` holds of all the frames. -/
def All (P : Assembly → Frame → Prop) : Assembly → List Frame → Prop
  | _, [] => True
  | a, f :: fs => P a f ∧ (a.after f).All P fs

/-- What `get` says of all the frames. -/
def along {β : Type} (get : Assembly → Frame → List β) : Assembly → List Frame → List β
  | _, [] => []
  | a, f :: fs => get a f ++ (a.after f).along get fs

/-- The frame may come here, and if it belongs to a text, what there is of the text
is UTF-8. -/
def Legal (server : Bool) (a : Assembly) (f : Frame) : Prop :=
  a.accepts server f = true ∧
    (a.opcodeOf f = 1 →
      if f.fin then WellFormed (a.joined f) else ∃ t, WellFormed (a.joined f ++ t))

/-- The message up to this frame is not longer than the limit. -/
def Fits (cfg : RxConfig) (a : Assembly) (f : Frame) : Prop := a.lengthOf cfg f ≤ cfg.limit

/-- The call that delivers the message that is complete with the frame. -/
def delivery (cfg : RxConfig) (a : Assembly) (f : Frame) : List Call :=
  (a.message f).toList.map fun m => msgCall m.1 (kept cfg m.1 m.2)

/-- The calls for a frame that is taken. -/
def callsFor (cfg : RxConfig) (a : Assembly) (f : Frame) : List Call :=
  [f.header.startCall, .frameRecvChunk f.payload, .frameRecvEnd] ++ a.delivery cfg f

section

variable {P P' : Assembly → Frame → Prop} {a : Assembly} {fs fs' : List Frame}

theorem All.mono (hP : ∀ a f, P a f → P' a f) (h : a.All P fs) : a.All P' fs := by
  induction fs generalizing a with
  | nil => trivial
  | cons f fs ih => exact ⟨hP a f h.1, ih h.2⟩

theorem all_append : a.All P (fs ++ fs') ↔ a.All P fs ∧ (a.afterAll fs).All P fs' := by
  induction fs generalizing a with
  | nil => exact ⟨fun h => ⟨trivial, h⟩, fun h => h.2⟩
  | cons f fs ih =>
    constructor
    · rintro ⟨h, hrest⟩
      obtain ⟨h₁, h₂⟩ := ih.1 hrest
      exact ⟨⟨h, h₁⟩, h₂⟩
    · rintro ⟨⟨h, h₁⟩, h₂⟩
      exact ⟨h, ih.2 ⟨h₁, h₂⟩⟩

theorem along_append {β : Type} (get : Assembly → Frame → List β) :
    a.along get (fs ++ fs') = a.along get fs ++ (a.afterAll fs).along get fs' := by
  induction fs generalizing a with
  | nil => rfl
  | cons f fs ih =>
    change get a f ++ (a.after f).along get (fs ++ fs') = _
    rw [ih, ← List.append_assoc]
    rfl

theorem along_const {β : Type} (get : Frame → List β) :
    a.along (fun _ => get) fs = fs.flatMap get := by
  induction fs generalizing a with
  | nil => rfl
  | cons f fs ih =>
    rw [List.flatMap_cons, ← ih]
    rfl

/-- Of the calls for frames that are taken, the deliveries. -/
theorem filter_along_callsFor (cfg : RxConfig) :
    (a.along (callsFor cfg) fs).filter Call.isMsg = a.along (delivery cfg) fs := by
  induction fs generalizing a with
  | nil => rfl
  | cons f fs ih =>
    have hall : (a.delivery cfg f).filter Call.isMsg = a.delivery cfg f := by
      refine List.filter_eq_self.2 fun c hc => ?_
      obtain ⟨m, -, rfl⟩ := List.mem_map.1 hc
      rfl
    change (a.callsFor cfg f ++ (a.after f).along (callsFor cfg) fs).filter Call.isMsg =
      a.delivery cfg f ++ (a.after f).along (delivery cfg) fs
    rw [List.filter_append, ih, callsFor, List.filter_append, hall]
    rfl

/-- The automatic replies to frames that are taken are Pongs. -/
theorem mem_pongOf {r : Reply} (h : r ∈ fs.flatMap pongOf) : ∃ msg, r = .pong msg := by
  obtain ⟨f, -, hr⟩ := List.mem_flatMap.1 h
  unfold pongOf at hr
  split_ifs at hr
  · exact ⟨f.payload, List.mem_singleton.1 hr⟩
  · cases hr

theorem afterAll_append : a.afterAll (fs ++ fs') = (a.afterAll fs).afterAll fs' :=
  List.foldl_append

end

section

variable {q : Bool} {cfg : RxConfig} {a : Assembly} {f : Frame} {fs : List Frame}

/-- The text of a legal frame can be read. -/
theorem Legal.readable (h : a.Legal cfg.server f) (h1 : a.opcodeOf f = 1) :
    ∃ t, read [] (a.joined f) = some t ∧ (f.fin = true → t = []) := by
  have htext := h.2 h1
  cases hfin : f.fin with
  | true =>
    rw [if_pos hfin] at htext
    exact ⟨[], (Utf8.wellFormed_iff _).1 htext, fun _ => rfl⟩
  | false =>
    rw [if_neg (by simp [hfin])] at htext
    obtain ⟨t, ht⟩ := Option.isSome_iff_exists.1 ((Utf8.read_isSome_iff _).2 htext)
    exact ⟨t, ht, fun h => by cases h⟩

/-- A legal frame is taken. -/
theorem report_legal (h : a.Legal cfg.server f) (hfits : a.Fits cfg f) :
    a.report q cfg f =
      ⟨a.callsFor cfg f, if f.opcode = 9 ∧ q = true then [.pong f.payload] else [],
        .live ((a.after f).rx cfg)⟩ := by
  have hlen : ¬ cfg.limit < a.lengthOf cfg f := Nat.not_lt.2 hfits
  have hnone : ¬ (a.opcodeOf f = 1 ∧ read [] (a.joined f) = none) := by
    rintro ⟨h1, hnone⟩
    obtain ⟨t, ht, -⟩ := h.readable h1
    rw [hnone] at ht
    cases ht
  have hsome : ¬ (a.opcodeOf f = 1 ∧ f.fin = true ∧ read [] (a.joined f) ≠ some []) := by
    rintro ⟨h1, hfin, hne⟩
    obtain ⟨t, ht, hnil⟩ := h.readable h1
    exact hne (by rw [ht, hnil hfin])
  rw [report, h.1, if_neg (by simp), if_neg hlen, if_neg hnone, if_neg hsome, callsFor, delivery,
    message]
  congr 2
  split_ifs <;> rfl

theorem Legal.after_ok (ha : a.Ok) (h : a.Legal cfg.server f) : (a.after f).Ok := by
  refine Assembly.after_ok ha h.1 fun h1 => ?_
  obtain ⟨t, ht, -⟩ := h.readable h1
  rw [ht]
  rfl

theorem All.afterAll_ok (ha : a.Ok) (h : a.All (Legal cfg.server) fs) : (a.afterAll fs).Ok := by
  induction fs generalizing a with
  | nil => exact ha
  | cons f fs ih => exact ih (Legal.after_ok ha h.1) h.2

/-- **Legal frames are taken, one after the other.** -/
theorem run_legal (h : a.All (Legal cfg.server) fs) (hfits : a.All (Fits cfg) fs) :
    a.run true cfg fs =
      ⟨a.along (callsFor cfg) fs, a.along (fun _ => pongOf) fs, .live ((a.afterAll fs).rx cfg)⟩ := by
  induction fs generalizing a with
  | nil => rfl
  | cons f fs ih =>
    have hrep := report_legal (q := true) h.1 hfits.1
    rw [run, hrep, Report.andThen_live rfl, ih h.2 hfits.2]
    simp only [and_true]
    rfl

/-- One run of frames after the other. -/
theorem run_append {fs' : List Frame} : a.run q cfg (fs ++ fs') =
    (a.run q cfg fs).andThen fun _ => (a.afterAll fs).run q cfg fs' := by
  induction fs generalizing a with
  | nil =>
    change (a.run q cfg fs' : Report) = (Report.start (a.rx cfg)).andThen _
    rw [Report.start_andThen]
    rfl
  | cons f fs ih =>
    change (a.report q cfg f).andThen (fun _ => (a.after f).run q cfg (fs ++ fs')) =
      ((a.report q cfg f).andThen fun _ => (a.after f).run q cfg fs).andThen _
    rw [Report.andThen_assoc, ih]
    rfl

/-- Where the receiver goes on, it stands where the reassembler does. -/
theorem run_live {rx' : Rx} (h : (a.run q cfg fs).fate = .live rx') :
    rx' = (a.afterAll fs).rx cfg ∧ (a.Ok → (a.afterAll fs).Ok) := by
  induction fs generalizing a with
  | nil =>
    cases h
    exact ⟨rfl, id⟩
  | cons f fs ih =>
    have hrun : a.run q cfg (f :: fs) =
      (a.report q cfg f).andThen fun _ => (a.after f).run q cfg fs := rfl
    rw [hrun] at h
    cases hf : (a.report q cfg f).fate with
    | off heard r =>
      rw [Report.andThen_off hf, hf] at h
      cases h
    | live rx₁ =>
      rw [Report.andThen_live hf] at h
      obtain ⟨hrx, hok⟩ := ih h
      exact ⟨hrx, fun ha => hok (report_ok ha hf)⟩

/-- The text goes on with some octets. -/
theorem scan_text (ha : a.Ok) (h1 : a.opcodeOf f = 1) (data : List UInt8) :
    ((draft cfg (a.opcodeOf f) (a.before f)).extend cfg f.header).scan 2 data =
      read [] (a.before f ++ data) := by
  obtain ⟨t, ht⟩ := Option.isSome_iff_exists.1 (ha.before h1)
  have hop : ((draft cfg (a.opcodeOf f) (a.before f)).extend cfg f.header).opcode = 1 := by
    unfold Draft.extend
    split_ifs <;> exact h1
  have htext : ((draft cfg (a.opcodeOf f) (a.before f)).extend cfg f.header).text = t := by
    unfold Draft.extend
    split_ifs <;> simp [draft, h1, ht]
  rw [Draft.scan, if_pos hop, htext, Utf8.read_append, ht, Option.bind_some]

/-- Who looks at no chunk sees no cut in frames that fit. -/
theorem All.blind {α : Type} {g : Call → List α} (hblind : ∀ x, g (.frameRecvChunk x) = [])
    (hlimit : cfg.limit < 2 ^ 64) (hfits : a.All (Fits cfg) fs) (h8 : ∀ f ∈ fs, f.opcode ≠ 8) :
    a.Meets q cfg (fun a f => (a.accepts cfg.server f = true → a.lengthOf cfg f < 2 ^ 64) ∧
      (a.Ok → (a.rx cfg).Smooth g cfg f.item)) fs := by
  induction fs generalizing a with
  | nil => trivial
  | cons f fs ih =>
    refine ⟨⟨fun _ => lt_of_le_of_lt hfits.1 hlimit, fun ha => ?_⟩, fun rx' _ => ?_⟩
    · exact smooth_blind hblind ha (h8 f (List.mem_cons_self ..)) _
    · exact ih hfits.2 fun g hg => h8 g (List.mem_cons_of_mem _ hg)

/-- To who looks at no chunk, frames that fit come to what the reassembler says. -/
theorem All.front {α : Type} {g : Call → List α} (hblind : ∀ x, g (.frameRecvChunk x) = [])
    (hdel : cfg.delivers = true) (ha : a.Ok) (hv : ∀ f ∈ fs, f.header.Valid)
    (h8 : ∀ f ∈ fs, f.opcode ≠ 8) (hlimit : cfg.limit < 2 ^ 64) (hfits : a.All (Fits cfg) fs) :
    (a.rx cfg).Meets q cfg (Rx.Smooth g cfg) (fs.map Frame.item) ∧
      (a.rx cfg).run q cfg (fs.map Frame.item) = a.run q cfg fs := by
  have hmeets := hfits.blind (q := q) hblind hlimit h8
  exact ⟨meets_items hdel ha hv h8 hmeets, run_items hdel ha hv h8 (hmeets.mono fun _ _ h => h.1)⟩

end

end Assembly

end Wslay
