import Wslay.Event.Recut
import Wslay.Event.Unbuffered

/-!
# Two contexts in the two modes

A context that buffers and one that does not are fed by networks that do the same.
They go through the same passes, and at the end of each the one stands where the other
does, but for what is kept of data messages.

* `frameRecv_congr` — the frame layer depends on the network only.
* `Twins` — the two contexts, between two passes.
* `buffering_agrees` — **the result**.
-/

namespace Wslay

/-! ## The frame layer -/

/-- The results are the same, and so is what the network does next. -/
def SameRecv {ρ : Type} (x y : ρ × FrameContext × Io) : Prop :=
  x.1 = y.1 ∧ x.2.1 = y.2.1 ∧ x.2.2.recvs = y.2.2.recvs

section

variable {io io' : Io}

theorem recvCallback_congr (h : io.recvs = io'.recvs) (len : Nat) :
    (io.recvCallback len).1 = (io'.recvCallback len).1 ∧
      (io.recvCallback len).2.recvs = (io'.recvCallback len).2.recvs := by
  unfold Io.recvCallback
  rw [← h]
  cases hr : io.recvs with
  | nil => exact ⟨rfl, rfl⟩
  | cons r rs =>
    cases r with
    | fail e => exact ⟨rfl, rfl⟩
    | data bs =>
      simp only
      split_ifs <;> exact ⟨rfl, rfl⟩

theorem wslayRecv_congr (h : io.recvs = io'.recvs) (f : FrameContext) :
    SameRecv (wslayRecv f io) (wslayRecv f io') := by
  obtain ⟨g, hg⟩ : ∃ g, (if f.ibufmark ≠ 0 then shiftIbuf f else f) = g := ⟨_, rfl⟩
  obtain ⟨hbs, hrecvs⟩ := recvCallback_congr h (ibufSize - g.ibuf.length)
  unfold wslayRecv
  simp only [hg]
  obtain ⟨bs, io₁, hcall⟩ : ∃ bs io₁, io.recvCallback (ibufSize - g.ibuf.length) = (bs, io₁) :=
    ⟨_, _, rfl⟩
  obtain ⟨bs', io₁', hcall'⟩ :
      ∃ bs io₁, io'.recvCallback (ibufSize - g.ibuf.length) = (bs, io₁) := ⟨_, _, rfl⟩
  rw [hcall, hcall'] at hbs hrecvs
  rw [hcall, hcall']
  simp only at hbs hrecvs
  subst hbs
  simp only
  split_ifs <;> exact ⟨rfl, rfl, hrecvs⟩

theorem requireIbuf_congr (h : io.recvs = io'.recvs) (f : FrameContext) :
    SameRecv (requireIbuf f io) (requireIbuf f io') := by
  obtain ⟨hr, hf, hrecvs⟩ := wslayRecv_congr h f
  unfold requireIbuf
  split_ifs
  · obtain ⟨r, g, io₁, hcall⟩ : ∃ r g io₁, wslayRecv f io = (r, g, io₁) := ⟨_, _, _, rfl⟩
    obtain ⟨r', g', io₁', hcall'⟩ : ∃ r g io₁, wslayRecv f io' = (r, g, io₁) := ⟨_, _, _, rfl⟩
    rw [hcall, hcall'] at hr hf hrecvs
    rw [hcall, hcall']
    simp only at hr hf hrecvs
    subst hr hf
    cases r with
    | some e => exact ⟨rfl, rfl, hrecvs⟩
    | none =>
      simp only
      split_ifs <;> exact ⟨rfl, rfl, hrecvs⟩
  · exact ⟨rfl, rfl, h⟩

/-- A block that may ask `recv_callback` and then reads, or is passed over. -/
theorem block_congr {guard : Prop} [Decidable guard]
    (read : FrameContext → Option Err × FrameContext) (h : io.recvs = io'.recvs)
    (f : FrameContext) {x y : Option Err × FrameContext × Io}
    (hx : x = if guard then
        match requireIbuf f io with
        | (some e, f, io) => (some e, f, io)
        | (none, f, io) => ((read f).1, (read f).2, io)
      else (none, f, io))
    (hy : y = if guard then
        match requireIbuf f io' with
        | (some e, f, io) => (some e, f, io)
        | (none, f, io) => ((read f).1, (read f).2, io)
      else (none, f, io')) :
    SameRecv x y := by
  obtain ⟨hr, hf, hrecvs⟩ := requireIbuf_congr h f
  rw [hx, hy]
  split_ifs
  · obtain ⟨r, g, io₁, hcall⟩ : ∃ r g io₁, requireIbuf f io = (r, g, io₁) := ⟨_, _, _, rfl⟩
    obtain ⟨r', g', io₁', hcall'⟩ : ∃ r g io₁, requireIbuf f io' = (r, g, io₁) := ⟨_, _, _, rfl⟩
    rw [hcall, hcall'] at hr hf hrecvs
    rw [hcall, hcall']
    simp only at hr hf hrecvs
    subst hr hf
    cases r <;> exact ⟨rfl, rfl, hrecvs⟩
  · exact ⟨rfl, rfl, h⟩

theorem recvPayload_congr (h : io.recvs = io'.recvs) (f : FrameContext) :
    SameRecv (recvPayload f io) (recvPayload f io') := by
  obtain ⟨hr, hf, hrecvs⟩ := wslayRecv_congr h f
  unfold recvPayload
  split_ifs
  · obtain ⟨r, g, io₁, hcall⟩ : ∃ r g io₁, wslayRecv f io = (r, g, io₁) := ⟨_, _, _, rfl⟩
    obtain ⟨r', g', io₁', hcall'⟩ : ∃ r g io₁, wslayRecv f io' = (r, g, io₁) := ⟨_, _, _, rfl⟩
    rw [hcall, hcall'] at hr hf hrecvs
    rw [hcall, hcall']
    simp only at hr hf hrecvs
    subst hr hf
    cases r <;> exact ⟨rfl, rfl, hrecvs⟩
  · exact ⟨rfl, rfl, h⟩
  · exact ⟨rfl, rfl, h⟩

/-- One block after another. -/
def afterBlock (x : Option Err × FrameContext × Io)
    (k : FrameContext → Io → Except Err Iocb × FrameContext × Io) :
    Except Err Iocb × FrameContext × Io :=
  match x with
  | (some e, f, io) => (.error e, f, io)
  | (none, f, io) => k f io

theorem frameRecv_blocks (f : FrameContext) (io : Io) :
    frameRecv f io = afterBlock (recvHeader1 f io) fun f io =>
      afterBlock (recvExtPayloadlen f io) fun f io =>
        afterBlock (recvMaskkey f io) recvPayload := rfl

theorem SameRecv.andThen {x y : Option Err × FrameContext × Io} (h : SameRecv x y)
    {k : FrameContext → Io → Except Err Iocb × FrameContext × Io}
    (hk : ∀ f {io io' : Io}, io.recvs = io'.recvs → SameRecv (k f io) (k f io')) :
    SameRecv (afterBlock x k) (afterBlock y k) := by
  obtain ⟨r, f, io⟩ := x
  obtain ⟨r', f', io'⟩ := y
  obtain ⟨hr, hf, hrecvs⟩ := h
  simp only at hr hf hrecvs
  subst hr hf
  cases r with
  | some e => exact ⟨rfl, rfl, hrecvs⟩
  | none => exact hk f hrecvs

/-- **What `wslay_frame_recv` does depends on the context and on what the network does
next.** -/
theorem frameRecv_congr (h : io.recvs = io'.recvs) (f : FrameContext) :
    SameRecv (frameRecv f io) (frameRecv f io') := by
  rw [frameRecv_blocks, frameRecv_blocks]
  have hheader : SameRecv (recvHeader1 f io) (recvHeader1 f io') :=
    block_congr readHeader1 h f rfl rfl
  refine hheader.andThen ?_
  intro f io io' h
  have hext : SameRecv (recvExtPayloadlen f io) (recvExtPayloadlen f io') :=
    block_congr readExtPayloadlen h f rfl rfl
  refine hext.andThen ?_
  intro f io io' h
  have hkey : SameRecv (recvMaskkey f io) (recvMaskkey f io') :=
    block_congr (fun f => (none, readMaskkey f)) h f rfl rfl
  refine hkey.andThen ?_
  intro f io io' h
  exact recvPayload_congr h f

end

/-! ## Side by side -/

/-- What comes of the items is the same in both modes, and the chunks make up the
bodies. -/
structure Agreed (cfg : RxConfig) (rx : Rx) (items : List Item) : Prop where
  bare : rx.bare.run true cfg.unbuffered items = (rx.run true cfg items).bare
  bodies : cfg.delivers = true → ∀ st : Gathered, st.Of rx →
    rebuild st ((rx.run true cfg items).calls.map Call.bare) = (rx.run true cfg items).calls ∧
      ∀ rx', (rx.run true cfg items).fate = .live rx' →
        (st.afterAll ((rx.run true cfg items).calls.map Call.bare)).Of rx'

/-- **A context that buffers and one that does not**, between two passes. -/
structure Twins (cfg : RxConfig) (s s' : EventContext × Io) (rx : Rx) (d : Dec)
    (look : List UInt8) : Prop where
  left : Runs cfg true s rx d look
  right : Runs cfg.unbuffered true s' rx.bare d look
  frame : s.1.frameCtx = s'.1.frameCtx
  recvs : s.2.recvs = s'.2.recvs
  keeps : rx.Keeps cfg
  unheard : s.1.closeStatus.received = false

/-- The two have read the same. -/
structure SideBySide (cfg : RxConfig) (s s' : EventContext × Io) (rx : Rx) (d : Dec)
    (look : List UInt8) (t t' : EventContext × Io) (new : List UInt8) (items : List Item)
    (d' : Dec) (look' : List UInt8) : Prop where
  left : Trace cfg true s rx d look t new items d' look'
  right : Trace cfg.unbuffered true s' rx.bare d look t' new items d' look'
  agreed : Agreed cfg rx items
  twins : ∀ rx', (rx.run true cfg items).fate = .live rx' → Twins cfg t t' rx' d' look'

/-- The context has rejected a frame that makes a message too long: it has stopped reading with
a Close 1009, and has not received a Close that this would be the answer to. -/
def TooBig (t : EventContext × Io) : Prop :=
  t.1.readEnabled = false ∧ t.1.closeStatus.received = false ∧
    Reply.queued (.close codeMessageTooBig []) ∈ t.2.queued

section

variable {cfg : RxConfig} {s s' t t' u u' : EventContext × Io} {rx rx' : Rx} {d d' d'' : Dec}
  {look look' look'' new new' : List UInt8} {items items' : List Item}

@[simp] theorem Fate.bare_heard (F : Fate) : F.bare.heard = F.heard := by
  cases F <;> rfl

@[simp] theorem Fate.bare_isLive (F : Fate) : F.bare.isLive = F.isLive := by
  cases F <;> rfl

theorem Report.bare_andThen (R : Report) {f g : Rx → Report}
    (h : ∀ rx, R.fate = .live rx → g rx.bare = (f rx).bare) :
    R.bare.andThen g = (R.andThen f).bare := by
  cases hf : R.fate with
  | live rx =>
    have hb : R.bare.fate = .live rx.bare := by
      rw [Report.bare, hf]
      rfl
    rw [Report.andThen_live hf, Report.andThen_live hb, h rx hf]
    simp [Report.bare]
  | off heard r =>
    have hb : R.bare.fate = .off heard r := by
      rw [Report.bare, hf]
      rfl
    rw [Report.andThen_off hf, Report.andThen_off hb]

theorem Agreed.nil (cfg : RxConfig) (rx : Rx) : Agreed cfg rx [] := by
  refine ⟨rfl, ?_⟩
  intro _ st hst
  refine ⟨rfl, ?_⟩
  rintro rx' ⟨⟩
  exact hst

theorem Agreed.append (h : Agreed cfg rx items)
    (h' : ∀ rx', (rx.run true cfg items).fate = .live rx' → Agreed cfg rx' items') :
    Agreed cfg rx (items ++ items') := by
  refine ⟨?_, ?_⟩
  · rw [Rx.run_append, Rx.run_append, h.bare]
    exact Report.bare_andThen _ fun rx' hlive => (h' rx' hlive).bare
  · intro hdel st hst
    obtain ⟨hbuild, hof⟩ := h.bodies hdel st hst
    rw [Rx.run_append]
    cases hf : (rx.run true cfg items).fate with
    | off heard r =>
      rw [Report.andThen_off hf]
      exact ⟨hbuild, hof⟩
    | live rx' =>
      obtain ⟨hbuild', hof'⟩ := (h' rx' hf).bodies hdel _ (hof rx' hf)
      rw [Report.andThen_live hf]
      refine ⟨?_, ?_⟩
      · rw [List.map_append, rebuild_append, hbuild, hbuild']
      · intro rx'' hlive
        rw [List.map_append, Gathered.afterAll_append]
        exact hof' rx'' hlive

/-- **One item**, unless it makes a message too long. -/
theorem Agreed.item (hbuf : cfg.noBuffering = false) (hlimit : cfg.limit < 2 ^ 63)
    (hk : rx.Keeps cfg) (hs : rx.Sound cfg) {i : Item} (hi : rx.Fits cfg i)
    (hshort : rx.Takes cfg i) :
    Agreed cfg rx [i] ∧ ∀ rx', (rx.run true cfg [i]).fate = .live rx' → rx'.Keeps cfg := by
  have hrun : rx.run true cfg [i] = rx.react true cfg i := Report.andThen_start _
  have hrun' : rx.bare.run true cfg.unbuffered [i] = rx.bare.react true cfg.unbuffered i :=
    Report.andThen_start _
  rw [hrun]
  obtain ⟨hbare, hkeeps⟩ := Rx.react_bare hbuf hlimit hk hi hshort
  refine ⟨⟨?_, ?_⟩, hkeeps⟩
  · rw [hrun, hrun', hbare]
  · intro hdel st hst
    rw [hrun]
    exact hst.react hbuf hlimit hdel hk hs hi true

/-- What comes next goes on with the frame in progress. -/
theorem Rx.fits_takePiece (hp : rx.Place d) (hd : d.Ok) :
    ∀ i ∈ (takePiece d look).items, rx.Fits cfg i := by
  intro i hi
  cases h : takePiece d look with
  | wait d' look' =>
    rw [h] at hi
    cases hi
  | bad =>
    rw [h] at hi
    rw [List.mem_singleton.1 hi]
    trivial
  | piece g off data d' look' =>
    rw [h] at hi
    rw [List.mem_singleton.1 hi]
    obtain ⟨hdr, raw, -, henter, hv, rfl, hle, -, -⟩ := takePiece_piece hd h
    refine ⟨hv, ?_⟩
    intro calls f waiting he
    obtain ⟨hheader, hoff⟩ := hp.enter henter he
    rw [Header.length_mask, hheader, hoff]
    exact hle

theorem frameCtx_halves {f g : FrameContext} (hr : f.recvHalf = g.recvHalf)
    (hs : f.sendHalf = g.sendHalf) : f = g := by
  simp only [FrameContext.recvHalf, FrameContext.sendHalf, Prod.mk.injEq] at hr hs
  cases f
  cases g
  simp_all

theorem frameCtx_withMsg (c : EventContext) (arg : EventMsg) :
    (c.withMsg arg).frameCtx = c.frameCtx := by
  unfold EventContext.withMsg
  simp only
  split_ifs <;> rfl

/-- Replies leave the frame layer alone. -/
theorem answerAll_frameCtx (s : EventContext × Io) (rs : List Reply) :
    (answerAll s rs).1.frameCtx = s.1.frameCtx := by
  induction rs generalizing s with
  | nil => rfl
  | cons r rs ih =>
    refine (ih (answer s r)).trans ?_
    cases r with
    | pong msg => exact frameCtx_withMsg s.1 _
    | close code reason => exact frameCtx_withMsg s.1 _

/-- Receiving leaves the sending half of the frame layer alone. -/
theorem Follows.frameSend {R : Report} (h : Follows s t R) :
    t.1.frameCtx.sendHalf = s.1.frameCtx.sendHalf := by
  have hsend : t.1.sendHalf = (answerAll s R.replies).1.sendHalf := congrArg Prod.fst h.send
  simp only [EventContext.sendHalf, Prod.mk.injEq] at hsend
  obtain ⟨-, -, -, -, -, hframe, -⟩ := hsend
  rw [hframe, answerAll_frameCtx]

theorem SideBySide.start (h : Twins cfg s s' rx d look) :
    SideBySide cfg s s' rx d look s s' [] [] d look := by
  refine ⟨.start h.left, .start h.right, .nil cfg rx, ?_⟩
  rintro rx' ⟨⟩
  exact h

/-- One after the other. -/
theorem SideBySide.trans (h : SideBySide cfg s s' rx d look t t' new items d' look')
    (hlive : (rx.run true cfg items).fate = .live rx')
    (h' : SideBySide cfg t t' rx' d' look' u u' new' items' d'' look'') :
    SideBySide cfg s s' rx d look u u' (new ++ new') (items ++ items') d'' look'' := by
  have hlive' : (rx.bare.run true cfg.unbuffered items).fate = .live rx'.bare := by
    rw [h.agreed.bare, Report.bare, hlive]
    rfl
  refine ⟨h.left.trans hlive h'.left, h.right.trans hlive' h'.right, ?_, ?_⟩
  · refine h.agreed.append ?_
    intro rx₁ h₁
    rw [hlive] at h₁
    cases h₁
    exact h'.agreed
  · intro rx₂ h₂
    rw [Rx.run_append, Report.andThen_live hlive] at h₂
    exact h'.twins rx₂ h₂

/-- A call ends with the pass that leaves. -/
theorem run_left {r : Int} (hleave : recvPass s = .leave r t) {n : Nat}
    {x : Int × EventContext × Io} (hrun : Loop.run recvPass n s = some x) : x = (r, t) := by
  cases n with
  | zero => simp [Loop.run] at hrun
  | succ n =>
    rw [Loop.run_succ_leave hleave] at hrun
    exact (Option.some.inj hrun).symm

/-- Where a pass has ended reading, the call ends with its result. -/
theorem run_off {R : Report} {heard : Option Nat} {r : Int} (hf : Follows s t R)
    (hoff : R.fate = .off heard r)
    (hends : recvPass s = .leave r t ∨ recvPass s = .again t ∧ r = 0) {n : Nat}
    {x : Int × EventContext × Io} (hrun : Loop.run recvPass n s = some x) : x = (r, t) := by
  have hshut : t.1.readEnabled = false := by
    rw [hf.enabled, hoff]
    rfl
  have hstop : recvPass t = .leave 0 t := by
    unfold recvPass
    simp [hshut]
  rcases hends with hleave | ⟨hagain, rfl⟩
  · exact run_left hleave hrun
  · cases n with
    | zero => simp [Loop.run] at hrun
    | succ n =>
      rw [Loop.run_succ_again hagain] at hrun
      exact run_left hstop hrun

/-- Both are given the same octets. -/
theorem Twins.sameFed (h : Twins cfg s s' rx d look) :
    (fed s).1.frameCtx = (fed s').1.frameCtx ∧ (fed s).2.recvs = (fed s').2.recvs := by
  obtain ⟨-, hframe, hrecvs⟩ := frameRecv_congr h.recvs s.1.frameCtx
  unfold fed
  rw [← h.frame]
  exact ⟨hframe, hrecvs⟩

/-- A frame that makes a message too long ends reading with a Close 1009. -/
theorem Follows.tooBig {h : Header} {data : List UInt8}
    (hf : Follows s t (rx.run true cfg [.piece h data]))
    (he : rx.enter cfg h = .error codeMessageTooBig) (hs : s.1.closeStatus.received = false) :
    TooBig t ∧ (rx.run true cfg [.piece h data]).fate = .off none 0 := by
  have hrun : rx.run true cfg [.piece h data] =
      ⟨[], [.close codeMessageTooBig []], .off none 0⟩ := by
    refine (Report.andThen_start _).trans ?_
    rw [Rx.react, Rx.piece_error he]
    rfl
  rw [hrun] at hf ⊢
  refine ⟨⟨?_, ?_, ?_⟩, rfl⟩
  · rw [hf.enabled]
    rfl
  · rw [hf.heard]
    exact hs
  · rw [hf.queues.1]
    exact List.mem_append_right _ (List.mem_singleton_self _)

/-- **What comes next**, unless it makes a message too long. -/
theorem Agreed.piece (hbuf : cfg.noBuffering = false) (hlimit : cfg.limit < 2 ^ 63)
    (hk : rx.Keeps cfg) (hs : rx.Sound cfg) {P : Piece} (hfits : ∀ i ∈ P.items, rx.Fits cfg i)
    (hshort : ∀ i ∈ P.items, rx.Takes cfg i) :
    Agreed cfg rx P.items ∧
      ∀ rx', (rx.run true cfg P.items).fate = .live rx' → rx'.Keeps cfg := by
  cases P with
  | wait d' look' =>
    refine ⟨.nil cfg rx, ?_⟩
    rintro rx' ⟨⟩
    exact hk
  | bad => exact Agreed.item hbuf hlimit hk hs trivial trivial
  | piece g off data d' look' =>
    exact Agreed.item hbuf hlimit hk hs (hfits _ (List.mem_singleton_self _))
      (hshort _ (List.mem_singleton_self _))

/-- When both have read the same, they stand side by side. -/
theorem Twins.sideBySide (h : Twins cfg s s' rx d look) (hin : SameInput (fed s) t)
    (hin' : SameInput (fed s') t') (ht : Trace cfg true s rx d look t new items d' look')
    (ht' : Trace cfg.unbuffered true s' rx.bare d look t' new items d' look')
    (hagreed : Agreed cfg rx items)
    (hkeeps : ∀ rx', (rx.run true cfg items).fate = .live rx' → rx'.Keeps cfg) :
    SideBySide cfg s s' rx d look t t' new items d' look' := by
  obtain ⟨hctx, hfed⟩ := h.sameFed
  refine ⟨ht, ht', hagreed, fun rx' hlive => ?_⟩
  have hlive' : (rx.bare.run true cfg.unbuffered items).fate = .live rx'.bare := by
    rw [hagreed.bare, Report.bare, hlive]
    rfl
  refine ⟨ht.runs h.left hlive, ht'.runs h.right hlive', ?_, ?_, hkeeps rx' hlive, ?_⟩
  · refine frameCtx_halves ?_ ?_
    · rw [hin.frame, hin'.frame, hctx]
    · rw [ht.follows.frameSend, ht'.follows.frameSend, h.frame]
  · rw [hin.recvs, hin'.recvs, hfed]
  · rw [ht.follows.heard, hlive]
    exact h.unheard

/-- **A pass of both.** -/
theorem Twins.pass (hbuf : cfg.noBuffering = false) (hlimit : cfg.limit < 2 ^ 63)
    (h : Twins cfg s s' rx d look) :
    (∃ t t' new items d' look' rx', recvPass s = .again t ∧ recvPass s' = .again t' ∧
        SideBySide cfg s s' rx d look t t' new items d' look' ∧
        (rx.run true cfg items).fate = .live rx') ∨
      ∀ n m x y, Loop.run recvPass n s = some x → Loop.run recvPass m s' = some y →
        TooBig x.2 ∨ x.1 = y.1 ∧ ∃ new items d' look',
          SideBySide cfg s s' rx d look x.2 y.2 new items d' look' := by
  obtain ⟨bs, hdel, t, d₁, look₁, hin, ht, hends, hat, hnext⟩ := recvPass_takes h.left
  obtain ⟨bs', hdel', t', d₁', look₁', hin', ht', hends', hat', hnext'⟩ := recvPass_takes h.right
  have hbs : bs = bs' := by
    have hpending := hdel.pending
    rw [h.recvs, hdel'.pending, h.sameFed.2] at hpending
    exact (List.append_cancel_right hpending).symm
  subst hbs
  have hfits : ∀ i ∈ (takePiece d (look ++ bs)).items, rx.Fits cfg i :=
    Rx.fits_takePiece h.left.listens.place h.left.listens.ready.ok
  generalize hp : takePiece d (look ++ bs) = P at ht ht' hends hends' hat hat' hnext hnext' hfits
  rw [hat] at hat'
  cases hat'
  by_cases hshort : ∀ i ∈ P.items, rx.Takes cfg i
  · obtain ⟨hagreed, hkeeps⟩ := Agreed.piece hbuf hlimit h.keeps h.left.sound hfits hshort
    have hside := h.sideBySide hin hin' ht ht' hagreed hkeeps
    have hbare : (rx.bare.run true cfg.unbuffered P.items).fate =
        (rx.run true cfg P.items).fate.bare := by
      rw [hagreed.bare]
      rfl
    rw [hbare] at hends' hnext'
    cases hfate : (rx.run true cfg P.items).fate with
    | off heard r =>
      -- reading is over
      refine Or.inr fun n m x y hx hy => Or.inr ?_
      rw [hfate] at hends hends' hbare
      rw [run_off ht.follows hfate hends hx, run_off ht'.follows hbare hends' hy]
      exact ⟨rfl, bs, P.items, d₁, look₁, hside⟩
    | live rx' =>
      have hpass := hnext rx' hfate
      have hpass' := hnext' rx'.bare (by rw [hfate]; rfl)
      cases hwaits : P.waits with
      | false =>
        rw [hwaits] at hpass hpass'
        exact Or.inl ⟨t, t', bs, P.items, d₁, look₁, rx', hpass, hpass', hside, hfate⟩
      | true =>
        rw [hwaits, if_pos rfl] at hpass hpass'
        refine Or.inr fun n m x y hx hy => Or.inr ?_
        rw [run_left hpass hx, run_left hpass' hy]
        exact ⟨rfl, bs, P.items, d₁, look₁, hside⟩
  · -- the frame makes a message too long
    refine Or.inr fun n m x y hx _ => Or.inl ?_
    cases P with
    | wait d' look' => exact absurd (fun i hi => by cases hi) hshort
    | bad => exact absurd (fun i hi => by rw [List.mem_singleton.1 hi]; trivial) hshort
    | piece g off data d' look' =>
      have he : rx.enter cfg g = .error codeMessageTooBig := by
        by_contra hno
        exact hshort fun i hi => by rw [List.mem_singleton.1 hi]; exact hno
      obtain ⟨hbig, hoff⟩ := ht.follows.tooBig he h.unheard
      rw [show (rx.run true cfg (Piece.piece g off data d' look').items).fate = .off none 0 from
        hoff] at hends
      rw [run_off ht.follows hoff hends hx]
      exact hbig

/-- **A call of `wslay_event_recv` in both modes.** -/
theorem Twins.call (hbuf : cfg.noBuffering = false) (hlimit : cfg.limit < 2 ^ 63)
    (h : Twins cfg s s' rx d look) :
    TooBig (eventRecv s.1 s.2).2 ∨ (eventRecv s.1 s.2).1 = (eventRecv s'.1 s'.2).1 ∧
      ∃ new items d' look', SideBySide cfg s s' rx d look (eventRecv s.1 s.2).2
        (eventRecv s'.1 s'.2).2 new items d' look' := by
  refine Loop.run_both (R := fun t t' => ∃ new items d' look' rx',
    SideBySide cfg s s' rx d look t t' new items d' look' ∧
      (rx.run true cfg items).fate = .live rx')
    (Q := fun x y => TooBig x.2 ∨ x.1 = y.1 ∧ ∃ new items d' look',
      SideBySide cfg s s' rx d look x.2 y.2 new items d' look') ?_ ?_
    (eventRecv_run h.left.hears) (eventRecv_run h.right.hears)
  · rintro t t' ⟨new, items, d', look', rx', hside, hlive⟩
    rcases (hside.twins rx' hlive).pass hbuf hlimit with
      ⟨u, u', new', items', d'', look'', rx'', hstep, hstep', hside', hlive'⟩ | hend
    · refine Or.inl ⟨u, u', hstep, hstep', _, _, _, _, rx'', hside.trans hlive hside', ?_⟩
      rw [Rx.run_append, Report.andThen_live hlive]
      exact hlive'
    · right
      intro n m x y hx hy
      rcases hend n m x y hx hy with hbig | ⟨hsame, new', items', d'', look'', hside'⟩
      · exact Or.inl hbig
      · exact Or.inr ⟨hsame, _, _, _, _, hside.trans hlive hside'⟩
  · exact ⟨[], [], d, look, rx, .start h, rfl⟩

/-- **A run of calls in both modes.** -/
theorem Twins.run (hbuf : cfg.noBuffering = false) (hlimit : cfg.limit < 2 ^ 63)
    (h : Twins cfg s s' rx d look) (n : Nat) :
    TooBig (recvRun s n) ∨ ∃ new items d' look',
      SideBySide cfg s s' rx d look (recvRun s n) (recvRun s' n) new items d' look' := by
  induction n with
  | zero => exact Or.inr ⟨[], [], d, look, .start h⟩
  | succ n ih =>
    rcases ih with hbig | ⟨new, items, d', look', hside⟩
    · rw [recvRun_succ, eventRecv_off hbig.1]
      exact Or.inl hbig
    · rw [recvRun_succ, recvRun_succ]
      cases hfate : (rx.run true cfg items).fate with
      | live rx' =>
        rcases (hside.twins rx' hfate).call hbuf hlimit with
          hbig | ⟨-, new', items', d'', look'', hside'⟩
        · exact Or.inl hbig
        · exact Or.inr ⟨_, _, _, _, hside.trans hfate hside'⟩
      | off heard r =>
        have hoff : (recvRun s n).1.readEnabled = false := by
          rw [hside.left.follows.enabled, hfate]
          rfl
        have hoff' : (recvRun s' n).1.readEnabled = false := by
          rw [hside.right.follows.enabled, hside.agreed.bare, Report.bare, hfate]
          rfl
        rw [eventRecv_off hoff, eventRecv_off hoff']
        exact Or.inr ⟨new, items, d', look', hside⟩

end

/-! ## The result -/

/-- The callbacks are called for the same calls. -/
theorem map_bare_filter (cb : EventCallbacks) (calls : List Call) :
    (calls.filter cb.takes).map Call.bare = (calls.map Call.bare).filter cb.takes := by
  rw [List.filter_map]
  refine congrArg (List.map Call.bare) (List.filter_congr ?_)
  intro c _
  cases c <;> rfl

/-- The bodies can be put together from the calls that are seen. -/
theorem rebuild_filter {cb : EventCallbacks} (hstart : cb.onFrameRecvStart = true)
    (hchunk : cb.onFrameRecvChunk = true) (hmsg : cb.onMsgRecv = true) (st : Gathered)
    (calls : List Call) :
    rebuild st (calls.filter cb.takes) = (rebuild st calls).filter cb.takes := by
  induction calls generalizing st with
  | nil => rfl
  | cons c calls ih =>
    rw [rebuild]
    by_cases hc : cb.takes c = true
    · have hfill : cb.takes (c.fill st) = true := by cases c <;> exact hc
      rw [List.filter_cons_of_pos hc, List.filter_cons_of_pos hfill, rebuild, ih]
    · have hfill : ¬ cb.takes (c.fill st) = true := by cases c <;> exact hc
      rw [List.filter_cons_of_neg hc, List.filter_cons_of_neg hfill, ← ih]
      -- only the end of a frame can be missing
      cases c with
      | frameRecvEnd => rfl
      | frameRecvStart fin rsv opcode len => exact absurd hstart hc
      | frameRecvChunk data => exact absurd hchunk hc
      | msgRecv rsv opcode msg code => exact absurd hmsg hc

/-- **The two modes agree**, as long as no message is longer than the limit: they give
the same answers, and call the same callbacks with the same arguments, but in
no-buffering mode data messages are delivered without a body; the chunks make it up. -/
theorem buffering_agrees (server : Bool) (callbacks : EventCallbacks) {limit : Nat}
    (hlimit : limit < 2 ^ 63) {io : Io} (hc : io.Calm) (n : Nat)
    (hfits : ¬ TooBig (recvRun (configured server callbacks false limit, io) n)) :
    let s := recvRun (configured server callbacks false limit, io) n
    let s' := recvRun (configured server callbacks true limit, io) n
    SameAnswers s s' ∧ s.2.received = s'.2.received ∧ s'.2.calls = s.2.calls.map Call.bare ∧
      (callbacks.onFrameRecvStart = true → callbacks.onFrameRecvChunk = true →
        s.2.calls = rebuild ⟨[], false⟩ s'.2.calls) := by
  intro s s'
  have htwins : Twins (.of server callbacks false limit)
      (configured server callbacks false limit, io) (configured server callbacks true limit, io)
      .fresh .head [] :=
    ⟨configured_runs server callbacks false limit hc, configured_runs server callbacks true limit hc,
      rfl, rfl, .fresh _, rfl⟩
  obtain ⟨new, items, d, look, hside⟩ := (htwins.run rfl hlimit n).resolve_left hfits
  have hbare : Rx.fresh.run true _ items = (Rx.fresh.run true _ items).bare := hside.agreed.bare
  have hstands : Stands callbacks _ s := hside.left.follows.stands hc
  have hstands' : Stands callbacks _ s' := hside.right.follows.stands hc
  have hcalls : s'.2.calls = s.2.calls.map Call.bare := by
    rw [hstands.calls, hstands'.calls, map_bare_filter]
    exact congrArg (fun R : Report => R.calls.filter callbacks.takes) hbare
  refine ⟨hside.left.follows.sameAnswers hc hc hside.right.follows ?_ ?_ ?_, ?_, hcalls, ?_⟩
  · exact (congrArg Report.replies hbare).symm
  · exact ((congrArg (fun R : Report => R.fate.heard) hbare).trans (Fate.bare_heard _)).symm
  · exact ((congrArg (fun R : Report => R.fate.isLive) hbare).trans (Fate.bare_isLive _)).symm
  · exact hside.left.received.trans hside.right.received.symm
  · intro hstart hchunk
    rw [hcalls, hstands.calls]
    cases hmsg : callbacks.onMsgRecv with
    | false =>
      -- nothing is delivered
      have hframes : ∀ c ∈ (Rx.fresh.run true (.of server callbacks false limit) items).calls.filter
          callbacks.takes, c.isMsg = false := by
        intro c hmem
        have htakes := (List.mem_filter.1 hmem).2
        cases c with
        | msgRecv rsv opcode msg code =>
          change callbacks.onMsgRecv = true at htakes
          rw [hmsg] at htakes
          cases htakes
        | _ => rfl
      obtain ⟨hmap, hbuild⟩ := rebuild_frames hframes ⟨[], false⟩
      rw [hmap, hbuild]
    | true =>
      obtain ⟨hbuild, -⟩ := hside.agreed.bodies hmsg ⟨[], false⟩ (Gathered.of_fresh false)
      rw [map_bare_filter, rebuild_filter hstart hchunk hmsg, hbuild]

/-- A text in two frames, with a Ping between them. -/
def dividedText : List Frame :=
  [⟨false, 0, 1, none, [0x41, 0xc3]⟩, ⟨true, 0, 9, none, [7]⟩, ⟨true, 0, 0, none, [0xa9]⟩]

/-- The chunks make up the text. -/
theorem buffering_agrees_dividedText :
    let io : Io := { recvs := [.data (dividedText.flatMap Frame.encode)] }
    let s := recvRun (configured false ⟨true, true, true, true⟩ false 100, io) 2
    let s' := recvRun (configured false ⟨true, true, true, true⟩ true 100, io) 2
    SameAnswers s s' ∧ s'.2.calls = s.2.calls.map Call.bare ∧
      s.2.calls = rebuild ⟨[], false⟩ s'.2.calls := by
  intro io s s'
  have hcalm : io.Calm :=
    ⟨rfl, fun h => (by cases h), ⟨Or.inl rfl, fun e he => (by simp [io] at he)⟩, rfl, rfl, rfl⟩
  have hfits : ¬ TooBig (recvRun (configured false ⟨true, true, true, true⟩ false 100, io) 2) := by
    unfold TooBig
    decide +kernel
  obtain ⟨hanswers, -, hcalls, hbuild⟩ := buffering_agrees false ⟨true, true, true, true⟩
    (by decide : 100 < 2 ^ 63) hcalm 2 hfits
  exact ⟨hanswers, hcalls, hbuild rfl rfl⟩

end Wslay
