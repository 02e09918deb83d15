import Wslay.Event.Draining
import Wslay.Event.Pair

/-!
# What is queued arrives

Two contexts talk to each other.  While one of them is only told to send, often enough,
all it has queued goes on its way, whatever else happens; and what is on its way is
delivered when it has arrived and the other side is told to receive often enough.

* `Ends.Sound.notDry` — no `read_callback` keeps the sender waiting.
* `Pair.Sound.emptied` — **the sender comes to its end**.
* `Pair.Sound.received` — what has arrived is received.
* `pair_delivers_eventually` — **the result**.
-/

namespace Wslay

/-! ## The sender -/

/-- Messages that come to their end leave room for what is sent later. -/
theorem plans_later {ms : List EventOmsg} (h : ∀ m ∈ ms, ∃ x, m.message = some x)
    (later : List Outline) : plans ms later = plans ms [] ++ later := by
  induction ms with
  | nil => rfl
  | cons m ms ih =>
    obtain ⟨x, hx⟩ := h m List.mem_cons_self
    obtain ⟨part, parts, -, hcut⟩ := Assembly.plan_cut hx
    have hrest := ih fun m' hm' => h m' (List.mem_cons_of_mem _ hm')
    show m.plan (plans ms later) = m.plan (plans ms []) ++ later
    rw [hcut, hcut, hrest, List.append_assoc]

/-- A message with nothing left to give needs no more frames. -/
theorem Holds.dry_data {c : EventContext} {h : Hand} (hh : Holds c h) (hdry : c.Dry)
    (later : List Outline) : h.data later = [] := by
  obtain ⟨m, homsg, htype, hfin, hsource⟩ := hdry
  cases hh with
  | empty hnone =>
    rw [hnone] at homsg
    cases homsg
  | start m' hsome hfit =>
    rw [homsg] at hsome
    cases hsome
    exact absurd (htype.symm.trans hfit.1) (by decide)
  | between m' hsome =>
    rw [homsg] at hsome
    cases hsome
    show fragments m.opcode m.source later = []
    rw [hsource]
    rfl
  | whole m' hrest hsome hfit =>
    rw [homsg] at hsome
    cases hsome
    exact absurd (htype.symm.trans hfit.1) (by decide)
  | fragment m' hrest hsome =>
    rw [homsg] at hsome
    cases hsome
    show (if m.fin ≠ 0 then later else fragments continuationFrame m.source later) = []
    rw [if_neg (not_not.2 hfin), hsource]
    rfl

section

variable {e : Ends} {p : Bool} {s : EventContext × Io}

/-- **No `read_callback` keeps the sender waiting**, as all messages come to their end. -/
theorem Ends.Sound.notDry (h : e.Sound p s) : ¬ s.1.Dry := by
  intro hdry
  obtain ⟨sent, owed, data, ctrl, hacc⟩ := h.accounted
  obtain ⟨hand, hh, -, -, -, hdata, -⟩ := hacc.live h.healthy.enabled
  have hends : ∀ m ∈ s.2.queuedData, ∃ x, m.message = some x := by
    intro m hm
    obtain ⟨q, hq, rfl, hctrl⟩ := mem_queuedData hm
    obtain ⟨x, hx, -⟩ := (h.proper q hq).data hctrl
    exact ⟨x, hx⟩
  -- the frames that are planned would not depend on what is queued later
  have hplans : ∀ later, dataOutlines sent = plans s.2.queuedData [] ++ later := by
    intro later
    rw [← plans_later hends later, ← hacc.data later, hdata, hh.dry_data hdry, List.append_nil]
  have hlonger := congrArg List.length ((hplans []).symm.trans (hplans [⟨true, 0, []⟩]))
  rw [List.length_append, List.length_append] at hlonger
  exact absurd hlonger (by simp)

/-- Nothing is left to be sent, or `send_callback` takes no more. -/
def Emptied (s : EventContext × Io) : Prop := eventWantWrite s.1 = false ∨ s.2.sends = []

/-- A call of `wslay_event_send` gets on. -/
theorem Ends.Sound.send_gotOn (h : e.Sound p s) :
    Emptied (appCall s.1 s.2 .send).2 ∨ budget (appCall s.1 s.2 .send).2 < budget s := by
  cases eventSend_gotOn h.accounted with
  | done hwant => exact Or.inl (Or.inl hwant)
  | less hless => exact Or.inr hless
  | blocked hsends => exact Or.inl (Or.inr hsends)
  | dry hdry => exact absurd hdry h.send.2.sound.notDry

/-- A sender that is emptied stays so, if it is only told to send. -/
theorem Emptied.send (h : Emptied s) : Emptied (appCall s.1 s.2 .send).2 := by
  rcases h with hwant | hsends
  · left
    have hpass := sendPass_unwanted hwant
    have hrun : Loop.run sendPass (sendFuel s.1) s = some (0, s) := Loop.run_succ_leave hpass
    show eventWantWrite (eventSend s.1 s.2).2.1 = false
    unfold eventSend
    rw [hrun]
    exact hwant
  · right
    have hle := eventSend_sends s
    rw [hsends] at hle
    exact List.eq_nil_of_length_eq_zero (Nat.le_zero.1 hle)

/-- The calls of `wslay_event_recv` of a run that keeps the side in order have received all
that has arrived. -/
theorem Ends.Sound.all_received (h : e.Sound p s) {k : Nat} (hk : s.2.recvs.length < k)
    (h' : e.Sound p (recvRun s k)) : pendingOctets (recvRun s k).2.recvs = [] := by
  obtain ⟨items, rx, d, look, hattends⟩ := h.attends
  obtain ⟨items', rx', d', look', hattends'⟩ := h'.attends
  obtain ⟨new, added, d'', look'', htrace, hdrains⟩ := recvRun_drains hattends.runs hk
  cases hfate : (rx.run true (e.cfg p) added).fate with
  | live rx'' =>
    obtain ⟨-, hnew⟩ := hdrains rx'' hfate
    have hpending := htrace.pending
    rw [hnew] at hpending
    exact List.self_eq_append_right.1 hpending
  | off heard r =>
    have hoff := htrace.follows.enabled
    rw [hfate, hattends'.runs.enabled] at hoff
    cases hoff

end

/-! ## The system -/

/-- The application of the side `q` only sends. -/
def Happening.OnlySends (q : Bool) : Happening → Prop
  | .call p op => p = q → op = .call .send
  | _ => True

section

variable {e : Ends} {n : Pair} {q : Bool}

/-- What a side that is only told to send comes to in a step. -/
theorem Pair.next_side {x : Happening} (hx : x.OnlySends q) :
    ((n.next x).side q = n.side q ∨ ∃ r, (n.next x).side q = feed (n.side q) r) ∧
        x ≠ .call q (.call .send) ∨
      x = .call q (.call .send) ∧
        (n.next x).side q = (appCall (n.side q).1 (n.side q).2 .send).2 := by
  cases x with
  | call p op =>
    by_cases hp : p = q
    · subst hp
      obtain rfl := hx rfl
      exact Or.inr ⟨rfl, Function.update_self ..⟩
    · refine Or.inl ⟨Or.inl (Function.update_of_ne (Ne.symm hp) ..), ?_⟩
      intro heq
      cases heq
      exact hp rfl
  | arrive p k =>
    refine Or.inl ⟨?_, by simp⟩
    by_cases hp : p = q
    · subst hp
      exact Or.inr ⟨_, Function.update_self ..⟩
    · exact Or.inl (Function.update_of_ne (Ne.symm hp) ..)
  | stall p =>
    refine Or.inl ⟨?_, by simp⟩
    by_cases hp : p = q
    · subst hp
      exact Or.inr ⟨_, Function.update_self ..⟩
    · exact Or.inl (Function.update_of_ne (Ne.symm hp) ..)

/-- **The sender comes to its end** in a run in which it is told often enough to send, and
nothing else, whatever the other side and the network do. -/
theorem Pair.Sound.emptied (he : e.Ok) (h : n.Sound e) {hs : List Happening}
    (hproper : ∀ x ∈ hs, x.Proper e ∧ x.OnlySends q)
    (hmany : budget (n.side q) < hs.count (.call q (.call .send))) :
    Emptied ((n.run hs).side q) := by
  refine Loop.foldl_reaches (P := Pair.Sound e) (Q := fun n : Pair => Emptied (n.side q))
    (μ := fun n : Pair => budget (n.side q)) ?_ ?_ ?_ ?_ hproper h (Or.inr hmany)
  · intro n x hx hn
    exact (hn.next he hx.1).1
  · intro n x hx hn hempty
    rcases n.next_side hx.2 with ⟨hsame | ⟨r, hfeed⟩, -⟩ | ⟨-, hsend⟩
    · rw [hsame]
      exact hempty
    · rw [hfeed]
      exact hempty
    · rw [hsend]
      exact hempty.send
  · intro n x hx hn
    rcases n.next_side hx.2 with ⟨hsame | ⟨r, hfeed⟩, -⟩ | ⟨-, hsend⟩
    · rw [hsame]
      exact Or.inr (Nat.le_refl _)
    · rw [hfeed]
      exact Or.inr (Nat.le_refl _)
    · rw [hsend]
      exact (hn.side q).send_gotOn.imp id Nat.le_of_lt
  · intro n hn
    have hnext : (n.next (.call q (.call .send))).side q =
        (appCall (n.side q).1 (n.side q).2 .send).2 := Function.update_self ..
    rw [hnext]
    exact (hn.side q).send_gotOn

/-- One side is told to receive some times. -/
theorem Pair.run_recv (n : Pair) (p : Bool) (k : Nat) :
    (n.run (List.replicate k (.call p .recv))).side p = recvRun (n.side p) k ∧
      (n.run (List.replicate k (.call p .recv))).side (!p) = n.side !p ∧
      (n.run (List.replicate k (.call p .recv))).flight p = n.flight p := by
  have hother : (!p) ≠ p := Bool.not_ne_self p
  induction k generalizing n with
  | zero => exact ⟨rfl, rfl, rfl⟩
  | succ k ih =>
    obtain ⟨h1, h2, h3⟩ := ih (n.next (.call p .recv))
    have hside : (n.next (.call p .recv)).side p = (step (n.side p) .recv).2 :=
      Function.update_self ..
    have hpeer : (n.next (.call p .recv)).side (!p) = n.side !p := Function.update_of_ne hother ..
    have hflight : (n.next (.call p .recv)).flight p = n.flight p :=
      Function.update_of_ne hother.symm ..
    rw [hside] at h1
    rw [hpeer] at h2
    rw [hflight] at h3
    exact ⟨h1, h2, h3⟩

end

/-- **What is queued is delivered.**  From any state that a proper run has come to: when
one side is told to send, and nothing else, more often than there are results of
`send_callback` and frames that may be needed, then all that it has queued is on its way or
has arrived, unless `send_callback` takes no more; and once the octets on their way have
arrived, so many calls of `wslay_event_recv` as there are results of `recv_callback`, and
one, deliver it. -/
theorem pair_delivers_eventually (e : Ends) (he : e.Ok) (io : Bool → Io) (hio : ∀ p, (io p).Ready)
    (p : Bool) (hs hs' : List Happening) (hproper : ∀ x ∈ hs ++ hs', x.Proper e)
    (hsends : ∀ x ∈ hs', x.OnlySends (!p))
    (hmany : budget (((e.start io).run hs).side !p) < hs'.count (.call (!p) (.call .send))) :
    let n := (e.start io).run (hs ++ hs')
    (n.side !p).2.sends = [] ∨ ∀ k l, (n.flight p).length ≤ k → (n.side p).2.recvs.length + 1 < l →
      let n' := n.run (.arrive p k :: List.replicate l (.call p .recv))
      (n'.side p).2.deliveredData = (n.side !p).2.queuedData.filterMap EventOmsg.message ∧
        (n'.side p).2.deliveredCtrl = (n.side !p).2.queuedCtrl.filterMap EventOmsg.message := by
  intro n
  have hstart : ((e.start io).run hs).Sound e := (e.sound_start hio).run he fun x hx =>
    hproper x (List.mem_append_left _ hx)
  have hsplit : n = ((e.start io).run hs).run hs' := List.foldl_append
  have hn : n.Sound e := (e.sound_start hio).run he hproper
  have hempty : Emptied (n.side !p) := by
    rw [hsplit]
    exact hstart.emptied he (fun x hx => ⟨hproper x (List.mem_append_right _ hx), hsends x hx⟩) hmany
  rcases hempty with hwant | hnone
  · right
    intro k l hk hl n'
    obtain ⟨m, hm⟩ : ∃ m, n.next (.arrive p k) = m := ⟨_, rfl⟩
    have hmSound : m.Sound e := by
      rw [← hm]
      exact (hn.next (x := .arrive p k) he trivial).1
    have hside : m.side p = feed (n.side p) (.data ((n.flight p).take k)) := by
      rw [← hm]
      exact Function.update_self ..
    have hpeer : m.side (!p) = n.side !p := by
      rw [← hm]
      exact Function.update_of_ne (Bool.not_ne_self p) ..
    have hflight : m.flight p = [] := by
      rw [← hm]
      show Function.update n.flight p ((n.flight p).drop k) p = []
      rw [Function.update_self, List.drop_of_length_le hk]
    have hrun : n' = m.run (List.replicate l (.call p .recv)) := by
      rw [← hm]
      rfl
    obtain ⟨h1, h2, h3⟩ := m.run_recv p l
    have hn' : n'.Sound e := by
      rw [hrun]
      refine hmSound.run he ?_
      intro x hx
      rw [List.eq_of_mem_replicate hx]
      trivial
    have hlength : (m.side p).2.recvs.length < l := by
      rw [hside]
      show ((n.side p).2.recvs ++ _).length < l
      rw [List.length_append]
      exact hl
    have hall : pendingOctets (n'.side p).2.recvs = [] := by
      have hp := hn'.side p
      rw [hrun, h1] at hp ⊢
      exact (hmSound.side p).all_received hlength hp
    have hpeer' : n'.side (!p) = n.side !p := by rw [hrun, h2, hpeer]
    have hflight' : n'.flight p = [] := by rw [hrun, h3, hflight]
    have hwant' : eventWantWrite (n'.side !p).1 = false := by
      rw [hpeer']
      exact hwant
    have hdelivered := (hn'.delivered he p).2.2 hflight' hall hwant'
    rw [hpeer'] at hdelivered
    exact hdelivered
  · exact Or.inl hnone

/-- In the middle of the conversation the client goes over to sending only. -/
def sendOff : List Happening := List.replicate 17 (.call false (.call .send))

/-- The text and the Ping of the client arrive. -/
theorem pair_delivers_eventually_sendOff :
    let n := (talkers.start talkersIo).run (conversation.take 5 ++ sendOff)
    let n' := n.run (.arrive true 100 :: List.replicate 3 (.call true .recv))
    (n'.side true).2.deliveredData = (n.side false).2.queuedData.filterMap EventOmsg.message ∧
      (n'.side true).2.deliveredCtrl = (n.side false).2.queuedCtrl.filterMap EventOmsg.message := by
  have hproper : ∀ x ∈ conversation.take 5 ++ sendOff, x.Proper talkers := by
    intro x hx
    rcases List.mem_append.1 hx with hx | hx
    · exact conversation_proper x (List.mem_of_mem_take hx)
    · rw [List.eq_of_mem_replicate hx]
      trivial
  have hsends : ∀ x ∈ sendOff, x.OnlySends false := by
    intro x hx
    rw [List.eq_of_mem_replicate hx]
    exact fun _ => rfl
  have hmany : budget (((talkers.start talkersIo).run (conversation.take 5)).side false) <
      sendOff.count (.call false (.call .send)) := by
    decide +kernel
  have hfacts : (((talkers.start talkersIo).run (conversation.take 5 ++ sendOff)).side false).2.sends
        ≠ [] ∧
      (((talkers.start talkersIo).run (conversation.take 5 ++ sendOff)).flight true).length ≤ 100 ∧
      (((talkers.start talkersIo).run (conversation.take 5 ++ sendOff)).side true).2.recvs.length + 1 <
        3 := by
    decide +kernel
  obtain ⟨hleft, hflight, hrecvs⟩ := hfacts
  have h := pair_delivers_eventually talkers talkers_ok talkersIo talkersIo_ready true _ _ hproper
    hsends hmany
  simp only [Bool.not_true] at h
  exact h.resolve_left hleft 100 3 hflight hrecvs

end Wslay
