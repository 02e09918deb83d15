import Wslay.Event.Reassembly

/-!
# The front of a stream

A stream that begins with some frames, whatever comes behind them: a run is
still among these frames, or it has gone through them.

* `Dec.Whole` — octets that end with a frame.
* `Reads.split` — a reading is cut where they end.
* `Trace.front` — **what a run has done among the frames at the front**.
* `Trace.taken` — what it has done with the octets taken out of the buffer.
* `recvRun_reaches` — the passes of a run.
-/

namespace Wslay

open Loop (Step)

/-! ## Whole frames -/

/-- The octets end the frame that `d` is in, if any, and then are whole frames. -/
def Dec.Whole (d : Dec) (a : List UInt8) : Prop :=
  match d with
  | .head => ∃ fs : List Frame, (∀ f ∈ fs, f.header.Valid) ∧ a = fs.flatMap Frame.encode
  | .body h off => ∃ raw, ∃ fs : List Frame, (∀ f ∈ fs, f.header.Valid) ∧
      a = raw ++ fs.flatMap Frame.encode ∧ off < h.length ∧ off + raw.length = h.length

theorem Dec.Whole.of_frames {fs : List Frame} (hv : ∀ f ∈ fs, f.header.Valid) :
    Dec.head.Whole (fs.flatMap Frame.encode) := ⟨fs, hv, rfl⟩

/-- A header at the front is the header of the first frame. -/
theorem encode_front {h : Header} (hv : h.Valid) {f : Frame} (hf : f.header.Valid)
    {x y : List UInt8} (heq : h.encode ++ x = f.encode ++ y) :
    f.header = h ∧ x = f.header.mask 0 f.payload ++ y := by
  rw [Frame.encode, List.append_assoc] at heq
  have hp := parseHeader_encode hv x
  rw [heq, parseHeader_encode hf] at hp
  cases hp
  exact ⟨rfl, rfl⟩

/-- After a piece, the octets that are left are whole if they were before. -/
theorem Dec.Whole.after {d : Dec} {hdr raw look a b : List UInt8} {h : Header} {off : Nat}
    (ha : d.Whole a) (hne : a ≠ []) (henter : d.Enters hdr h off) (hv : h.Valid)
    (hle : off + raw.length ≤ h.length) (heq : a ++ b = hdr ++ (raw ++ look)) :
    ∃ a', look = a' ++ b ∧ a = hdr ++ (raw ++ a') ∧ (Dec.after h off raw.length).Whole a' := by
  -- what is left of the frame, and the frames behind it
  obtain ⟨body, fs, hfs, rfl, hbody, hlook⟩ : ∃ body, ∃ fs : List Frame,
      (∀ f ∈ fs, f.header.Valid) ∧ a = hdr ++ (body ++ fs.flatMap Frame.encode) ∧
      off + body.length = h.length ∧
      body ++ (fs.flatMap Frame.encode ++ b) = raw ++ look := by
    rcases henter with ⟨rfl, rfl, rfl⟩ | ⟨rfl, rfl⟩
    · obtain ⟨fs, hfs, rfl⟩ := ha
      cases fs with
      | nil => exact absurd rfl hne
      | cons f fs =>
        rw [List.flatMap_cons, List.append_assoc] at heq
        obtain ⟨rfl, hrest⟩ := encode_front hv (hfs f (List.mem_cons_self ..)) heq.symm
        refine ⟨f.header.mask 0 f.payload, fs, fun g hg => hfs g (List.mem_cons_of_mem _ hg), ?_,
          by simp, hrest.symm⟩
        rw [List.flatMap_cons, Frame.encode, List.append_assoc]
    · obtain ⟨body, fs, hfs, rfl, hlt, hbody⟩ := ha
      rw [List.append_assoc] at heq
      exact ⟨body, fs, hfs, rfl, hbody, heq⟩
  -- the piece is a part of what is left of the frame
  obtain ⟨more, rfl⟩ : raw <+: body :=
    List.prefix_of_prefix_length_le ⟨look, rfl⟩ ⟨_, hlook⟩ (by omega)
  rw [List.append_assoc, List.append_cancel_left_eq] at hlook
  refine ⟨more ++ fs.flatMap Frame.encode, ?_, by simp, ?_⟩
  · rw [← hlook, List.append_assoc]
  · rw [List.length_append] at hbody
    unfold Dec.after
    by_cases hend : h.length = off + raw.length
    · rw [if_pos hend]
      have hnil : more = [] := List.length_eq_zero_iff.1 (by omega)
      rw [hnil]
      exact ⟨fs, hfs, rfl⟩
    · rw [if_neg hend]
      exact ⟨more, fs, hfs, rfl, by omega, by omega⟩

/-- Nothing is waited for in the midst of whole frames. -/
theorem Dec.Whole.wait {d : Dec} {a b : List UInt8} (ha : d.Whole a) (hd : d.Ok)
    (hwait : takePiece d (a ++ b) = .wait d (a ++ b)) : d = .head ∧ a = [] := by
  have hnil := Dec.items_wait hd hwait
  cases d with
  | head =>
    obtain ⟨fs, hfs, rfl⟩ := ha
    have hitems : streamItems (fs.flatMap Frame.encode ++ b) = [] := hnil
    rw [streamItems_flatMap hfs, List.append_eq_nil_iff, List.map_eq_nil_iff] at hitems
    rw [hitems.1]
    exact ⟨rfl, rfl⟩
  | body h off =>
    obtain ⟨raw, fs, hfs, rfl, hlt, hraw⟩ := ha
    have hitems : payloadItems h off (raw ++ fs.flatMap Frame.encode ++ b) = [] := hnil
    rw [List.append_assoc, payloadItems_done hraw] at hitems
    cases hitems

/-- The front of a payload begins the piece that it is in. -/
theorem payloadItems_front {h : Header} {off : Nat} {raw : List UInt8} (hne : raw ≠ [])
    (hle : off + raw.length ≤ h.length) (look : List UInt8) :
    ∃ y rest, payloadItems h off (raw ++ look) = .piece h (h.mask off raw ++ y) :: rest := by
  by_cases hend : off + raw.length = h.length
  · refine ⟨[], streamItems look, ?_⟩
    rw [payloadItems_done hend, List.append_nil]
  · have hlt : off + raw.length < h.length := by omega
    by_cases hnil : look = []
    · refine ⟨[], [], ?_⟩
      rw [hnil, List.append_nil, List.append_nil, payloadItems, if_pos (by omega), if_neg hne]
    · obtain ⟨y, rest, -, -, -, heq⟩ := payloadItems_part hlt hnil
      exact ⟨y, rest, heq⟩

/-! ## Where whole frames end -/

/-- **A reading is still among the whole frames at the front, or it has gone
through them.** -/
theorem Reads.split {d d' : Dec} {look look' a b : List UInt8} {items : List Item}
    (h : Reads d look items d' look') (ha : d.Whole a) (hlook : look = a ++ b) :
    (∃ a', look' = a' ++ b ∧ d'.Whole a' ∧ Reads d a items d' a') ∨
      ∃ items₁ items₂, items = items₁ ++ items₂ ∧ Reads d a items₁ .head [] ∧
        Reads .head b items₂ d' look' := by
  induction h generalizing a with
  | stop d look => exact Or.inl ⟨a, hlook, ha, .stop d a⟩
  | @header h look items d' look' hv hpos hrest ih =>
    by_cases hne : a = []
    · subst hne
      rw [List.nil_append] at hlook
      exact Or.inr ⟨[], items, rfl, .stop _ _, hlook ▸ .header hv hpos hrest⟩
    · have henter : Dec.head.Enters h.encode h 0 := Or.inl ⟨rfl, rfl, rfl⟩
      have heq : a ++ b = h.encode ++ ([] ++ look) := hlook.symm
      obtain ⟨a', rfl, rfl, ha'⟩ := ha.after hne henter hv (Nat.zero_le _) heq
      have hafter : Dec.after h 0 ([] : List UInt8).length = .body h 0 :=
        if_neg (by simpa using Nat.ne_of_gt hpos)
      rw [hafter] at ha'
      rcases ih ha' rfl with ⟨a'', hlook', hwhole, hreads⟩ | ⟨is, is', rfl, hreads, hreads'⟩
      · exact Or.inl ⟨a'', hlook', hwhole, .header hv hpos hreads⟩
      · exact Or.inr ⟨is, is', rfl, .header hv hpos hreads, hreads'⟩
  | @piece d hdr raw look h off items d' look' henter hv hle hempty hrest ih =>
    by_cases hne : a = []
    · subst hne
      rw [List.nil_append] at hlook
      have hhead : d = .head := by
        cases d with
        | head => rfl
        | body g off' =>
          obtain ⟨raw', fs, -, hnil, hlt, hlen⟩ := ha
          rw [eq_comm, List.append_eq_nil_iff] at hnil
          rw [hnil.1, List.length_nil] at hlen
          omega
      subst hhead
      exact Or.inr ⟨[], _, rfl, .stop _ _, hlook ▸ .piece henter hv hle hempty hrest⟩
    · obtain ⟨a', rfl, rfl, ha'⟩ := ha.after hne henter hv hle hlook.symm
      rcases ih ha' rfl with ⟨a'', hlook', hwhole, hreads⟩ | ⟨is, is', rfl, hreads, hreads'⟩
      · exact Or.inl ⟨a'', hlook', hwhole, .piece henter hv hle hempty hreads⟩
      · exact Or.inr ⟨_, is', rfl, .piece henter hv hle hempty hreads, hreads'⟩
  | @malformed look hparse =>
    cases hne : a with
    | nil =>
      rw [hne, List.nil_append] at hlook
      exact Or.inr ⟨[], _, rfl, .stop _ _, hlook ▸ .malformed hparse⟩
    | cons x xs =>
      -- the front of whole frames is a header
      obtain ⟨fs, hfs, rfl⟩ := ha
      cases fs with
      | nil => cases hne
      | cons f fs =>
        rw [hlook, List.flatMap_cons, Frame.encode, List.append_assoc, List.append_assoc,
          parseHeader_encode (hfs f (List.mem_cons_self ..))] at hparse
        cases hparse

/-- The octets of the pieces are those that are no longer in hand. -/
theorem Reads.used {d d' : Dec} {look look' : List UInt8} {items : List Item}
    (h : Reads d look items d' look') (hok : Item.malformed ∉ items) :
    ∃ used, look = used ++ look' ∧ Reads d used items d' [] := by
  induction h with
  | stop d look => exact ⟨[], rfl, .stop d []⟩
  | header hv hpos _ ih =>
    obtain ⟨used, rfl, hreads⟩ := ih hok
    exact ⟨_, (List.append_assoc ..).symm, .header hv hpos hreads⟩
  | piece henter hv hle hempty _ ih =>
    obtain ⟨used, rfl, hreads⟩ := ih fun hm => hok (List.mem_cons_of_mem _ hm)
    refine ⟨_, ?_, .piece henter hv hle hempty hreads⟩
    simp only [List.append_assoc]
  | malformed hp => exact absurd (List.mem_singleton_self _) hok

/-! ## Runs -/

section

variable {α : Type} {g : Call → List α} {cfg : RxConfig} {q : Bool} {s s' t : EventContext × Io}
  {rx : Rx} {d d' : Dec} {look look' new more rest : List UInt8} {items : List Item}
  {fs : List Frame}

theorem Dec.items_nil : Dec.head.items [] = [] := by
  change streamItems [] = []
  rw [streamItems, decodeStream_more rfl]
  rfl

/-- **What a run has done among the frames at the front**: a part of what they come
to, or all of it. -/
theorem Trace.front (ht : Trace cfg q s rx .head [] s' new items d' look')
    (hg : ∀ x y, g (.frameRecvChunk (x ++ y)) = g (.frameRecvChunk x) ++ g (.frameRecvChunk y))
    (hp : rx.Place .head) (hv : ∀ f ∈ fs, f.header.Valid)
    (hm : rx.Meets q cfg (Rx.Smooth g cfg) (fs.map Frame.item))
    (hmore : new ++ more = fs.flatMap Frame.encode ++ rest) :
    (∃ a', look' ++ more = a' ++ rest ∧ d'.Whole a' ∧
      Report.Alike g (rx.run q cfg (fs.map Frame.item))
        ((rx.run q cfg items).andThen fun rx => rx.run q cfg (d'.items a'))) ∨
    ∃ items₁ items₂, items = items₁ ++ items₂ ∧ Reads .head rest items₂ d' (look' ++ more) ∧
      Report.Alike g (rx.run q cfg (fs.map Frame.item)) (rx.run q cfg items₁) := by
  have hreads := ht.reads.extend more
  rw [List.nil_append] at hreads
  rw [← streamItems_frames hv] at hm ⊢
  rcases hreads.split (.of_frames hv) hmore with ⟨a', hlook, hwhole, hin⟩ |
    ⟨items₁, items₂, rfl, hin, hout⟩
  · exact Or.inl ⟨a', hlook, hwhole, hin.cuts hg hp hm⟩
  · refine Or.inr ⟨items₁, items₂, rfl, hout, ?_⟩
    have hall := hin.cuts hg hp hm
    have hstart : (rx.run q cfg items₁).andThen (fun rx => rx.run q cfg (Dec.head.items [])) =
        rx.run q cfg items₁ := by
      rw [Dec.items_nil]
      exact Report.andThen_start _
    rw [hstart] at hall
    exact hall

/-- A run of enough calls has gone through the frames at the front, unless they have
ended it. -/
theorem recvRun_front (hr : Runs cfg q s rx .head []) {n : Nat} (hn : s.2.recvs.length < n)
    (hg : ∀ x y, g (.frameRecvChunk (x ++ y)) = g (.frameRecvChunk x) ++ g (.frameRecvChunk y))
    (hv : ∀ f ∈ fs, f.header.Valid) (hm : rx.Meets q cfg (Rx.Smooth g cfg) (fs.map Frame.item))
    (hstream : pendingOctets s.2.recvs = fs.flatMap Frame.encode ++ rest) :
    ∃ new items₁ items₂ d' look' more,
      Trace cfg q s rx .head [] (recvRun s n) new (items₁ ++ items₂) d' look' ∧
      Report.Alike g (rx.run q cfg (fs.map Frame.item)) (rx.run q cfg items₁) ∧
      (∀ rx', (rx.run q cfg items₁).fate = .live rx' → Reads .head rest items₂ d' (look' ++ more)) ∧
      ∀ rx', (rx.run q cfg (items₁ ++ items₂)).fate = .live rx' →
        takePiece d' look' = .wait d' look' ∧ more = [] := by
  obtain ⟨new, items, d', look', ht, hwait⟩ := recvRun_drains hr hn
  have hmore : new ++ pendingOctets (recvRun s n).2.recvs = fs.flatMap Frame.encode ++ rest :=
    ht.pending.symm.trans hstream
  have hlast : ∀ rx', (rx.run q cfg items).fate = .live rx' →
      takePiece d' look' = .wait d' look' ∧ pendingOctets (recvRun s n).2.recvs = [] := by
    intro rx' hlive
    obtain ⟨hstill, hall⟩ := hwait rx' hlive
    refine ⟨hstill, ?_⟩
    have hpend := ht.pending
    rw [← hall] at hpend
    simpa using hpend
  rcases ht.front hg hr.listens.place hv hm hmore with ⟨a', hlook, hwhole, halike⟩ |
    ⟨items₁, items₂, rfl, hout, halike⟩
  · cases hfate : (rx.run q cfg items).fate with
    | off heard r =>
      rw [Report.andThen_off hfate] at halike
      refine ⟨new, items, [], d', look', [], by rwa [List.append_nil], halike, ?_, ?_⟩
      · intro rx' hlive
        rw [hfate] at hlive
        cases hlive
      · intro rx' hlive
        rw [List.append_nil, hfate] at hlive
        cases hlive
    | live rx' =>
      obtain ⟨hstill, hnil⟩ := hlast rx' hfate
      rw [hnil, List.append_nil] at hlook
      obtain ⟨rfl, rfl⟩ := hwhole.wait (ht.listens rx' hfate).1.ready.ok (hlook ▸ hstill)
      have hstart : (rx.run q cfg items).andThen (fun rx => rx.run q cfg (Dec.head.items [])) =
          rx.run q cfg items := by
        rw [Dec.items_nil]
        exact Report.andThen_start _
      rw [hstart] at halike
      rw [List.nil_append] at hlook
      refine ⟨new, items, [], .head, look', [], by rwa [List.append_nil], halike, ?_, ?_⟩
      · intro rx'' _
        rw [List.append_nil, hlook]
        exact .stop _ _
      · intro rx'' _
        exact ⟨hstill, rfl⟩
  · exact ⟨new, items₁, items₂, d', look', _, ht, halike, fun _ _ => hout, hlast⟩

/-- **What has been taken out of the buffer is what the context has dealt with.** -/
theorem Trace.taken (ht : Trace cfg q s rx .head [] t new items d' look')
    (hg : ∀ x y, g (.frameRecvChunk (x ++ y)) = g (.frameRecvChunk x) ++ g (.frameRecvChunk y))
    (hp : rx.Place .head) {rx' : Rx} (hlive : (rx.run q cfg items).fate = .live rx') :
    ∃ taken, new = taken ++ t.1.frameCtx.avail ∧
      (rx.Meets q cfg (Rx.Smooth g cfg) (streamItems taken) →
        Report.Alike g (rx.run q cfg (streamItems taken)) (rx.run q cfg items)) := by
  obtain ⟨used, hused, hreads⟩ := ht.reads.used (Rx.run_live hlive)
  have hready := (ht.listens rx' hlive).1.ready
  obtain ⟨aside, hlook, hmore, hnone⟩ := hready.view.aside
  rw [List.nil_append, hlook, ← List.append_assoc] at hused
  refine ⟨used ++ aside, hused, fun hm => ?_⟩
  have hall := (hreads.extend aside).cuts hg hp hm
  rw [List.nil_append] at hall
  -- the part of a header that has been put aside is no piece
  have hnil : d'.items aside = [] := by
    cases hd : d' with
    | head =>
      change streamItems aside = []
      rw [streamItems, decodeStream_more (hmore hd)]
      rfl
    | body h off =>
      have hok := hready.ok
      rw [hd] at hok
      have hlt := hok.2
      rw [hnone (by simp [hd])]
      change payloadItems h off [] = []
      rw [payloadItems, if_pos (by rw [List.length_nil]; omega), if_pos rfl]
  have hstart : (rx.run q cfg items).andThen (fun rx => rx.run q cfg (d'.items aside)) =
      rx.run q cfg items := by
    rw [hnil]
    exact Report.andThen_start _
  rw [hstart] at hall
  exact hall

/-! ## The passes of a run -/

/-- At the beginning of every pass of a call the context has read some octets. -/
theorem Runs.reaches (hr : Runs cfg q s rx d look) (h : Loop.Reaches recvPass s t) :
    ∃ new items d' look', Trace cfg q s rx d look t new items d' look' := by
  have hstart : Underway cfg q s rx d look s := by
    refine ⟨[], [], d, look, .start hr, ?_⟩
    rintro heard r ⟨⟩
  obtain ⟨new, items, d', look', ht, -⟩ := h.inv (P := Underway cfg q s rx d look)
    (fun t t' hu hagain => by
      rcases hu.pass hr with ⟨t'', heq, hu'⟩ | ⟨r, t'', -, -, -, -, heq, -⟩ <;>
        rw [hagain] at heq <;> cases heq
      exact hu') hstart
  exact ⟨new, items, d', look', ht⟩

/-- **At the beginning of every pass of a run** the context has read some octets. -/
theorem recvRun_reaches (hr : Runs cfg q s rx d look) (n : Nat)
    (h : Loop.Reaches recvPass (recvRun s n) t) :
    ∃ new items d' look', Trace cfg q s rx d look t new items d' look' := by
  obtain ⟨new, items, d', look', ht⟩ := recvRun_trace hr n
  cases hfate : (rx.run q cfg items).fate with
  | off heard r =>
    have hoff : (recvRun s n).1.readEnabled = false := by
      rw [ht.follows.enabled, hfate]
      rfl
    have hstay : recvPass (recvRun s n) = .leave 0 (recvRun s n) := by
      unfold recvPass
      simp [hoff]
    rw [h.of_leave hstay]
    exact ⟨new, items, d', look', ht⟩
  | live rx' =>
    obtain ⟨new', items', d'', look'', ht'⟩ := (ht.runs hr hfate).reaches h
    exact ⟨_, _, _, _, ht.trans hfate ht'⟩

/-- A pass that finds reading disabled does nothing. -/
theorem recvPass_off (hoff : s.1.readEnabled = false) : recvPass s = .leave 0 s := by
  unfold recvPass
  simp [hoff]

/-- **When reading is over, there was a pass that has ended it.** -/
theorem recvRun_stops (hs : Hears cfg s) (hon : s.1.readEnabled = true) {n : Nat}
    (hoff : (recvRun s n).1.readEnabled = false) :
    ∃ m t, Loop.Reaches recvPass (recvRun s m) t ∧ t.1.readEnabled = true ∧
      ((∃ r, recvPass t = .leave r (recvRun s n)) ∨ recvPass t = .again (recvRun s n)) := by
  induction n with
  | zero =>
    rw [recvRun_zero, hon] at hoff
    cases hoff
  | succ n ih =>
    cases hlast : (recvRun s n).1.readEnabled with
    | false =>
      have hsame : recvRun s (n + 1) = recvRun s n := by
        rw [recvRun_succ, eventRecv_off hlast]
      rw [hsame]
      exact ih hlast
    | true =>
      obtain ⟨t, ht, hleave⟩ := Loop.run_leaves (eventRecv_run (runOps_hears hs _))
      change Loop.Reaches recvPass (recvRun s n) t at ht
      obtain ⟨r, hleave⟩ : ∃ r, recvPass t = .leave r (recvRun s (n + 1)) := by
        rw [recvRun_succ]
        exact ⟨_, hleave⟩
      cases htop : t.1.readEnabled with
      | true => exact ⟨n, t, ht, htop, Or.inl ⟨r, hleave⟩⟩
      | false =>
        -- an earlier pass has ended it
        rw [recvPass_off htop] at hleave
        simp only [Step.leave.injEq] at hleave
        obtain ⟨-, rfl⟩ := hleave
        obtain ⟨u, v, hu, hpu, huv, hv, hvt⟩ :=
          ht.first (P := fun t => t.1.readEnabled = true) hlast (by simp [htop])
        have hvoff : v.1.readEnabled = false := by simpa using hv
        rw [hvt.of_leave (recvPass_off hvoff)]
        exact ⟨n, u, hu, hpu, Or.inr huv⟩

end

end Wslay
