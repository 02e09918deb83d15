import Wslay.Event.Endings
import Wslay.Event.Fatal
import Wslay.Event.Following
import Wslay.Frame.Reencode

/-!
# The order of the receive callbacks

A frame is announced, its payload is handed on in pieces, it is closed, and if
it completes a message the message is delivered.  The loop body decides all of
this anew for every piece; here the calls of a whole run are put together again.

* `Groups` — the calls that whole frames lead to.
* `headersOf` — the headers that a stream shows.
* `Told`, `Tells` — the invariant: what has been told of the frames so far.
* `PassLeaves` — where a pass can leave the calls.
* `callbacks_in_order` — the result, for every run.
-/

namespace Wslay

open Loop (Step)
open Octets (Key)

/-! ## Groups of calls -/

/-- The delivery that follows the end of a frame with header `h`: one if the frame
is the last of its message, and none otherwise. -/
def Header.Delivery (h : Header) (calls : List Call) : Prop :=
  if h.fin then ∃ opcode msg, calls = [msgCall opcode msg] else calls = []

/-- **The calls that whole frames lead to**, one group for each of the headers. -/
inductive Groups : List Header → List Call → Prop
  | nil : Groups [] []
  | frame {hs : List Header} {T : List Call} (h : Header) (chunks : List (List UInt8))
      (msg : List Call) : Groups hs T → chunks ≠ [] → chunks.flatten.length = h.length →
      h.Delivery msg →
      Groups (hs ++ [h])
        (T ++ h.startCall :: (chunks.map Call.frameRecvChunk ++ Call.frameRecvEnd :: msg))

/-- The header at the end of a stream, if it is complete. -/
def Tail.headers : Tail → List Header
  | .payload h _ => [h]
  | _ => []

/-- The headers that a stream shows. -/
def headersOf (s : List UInt8) : List Header :=
  (decodeStream s).1.map Frame.header ++ (decodeStream s).2.headers

theorem headersOf_frames {fs : List Frame} (hv : ∀ f ∈ fs, f.header.Valid) (s : List UInt8) :
    headersOf (fs.flatMap Frame.encode ++ s) = fs.map Frame.header ++ headersOf s := by
  unfold headersOf
  rw [decodeStream_flatMap hv, List.map_append, List.append_assoc]

/-- A header is seen as soon as it is complete. -/
theorem headersOf_encode {h : Header} (hv : h.Valid) (s : List UInt8) :
    [h] <+: headersOf (h.encode ++ s) := by
  unfold headersOf
  rw [decodeStream_header (parseHeader_encode hv s)]
  by_cases hshort : s.length < h.length
  · rw [if_pos hshort]
    exact List.prefix_rfl
  · rw [if_neg hshort]
    have hlen : (h.mask 0 (s.take h.length)).length = h.length := by
      rw [Header.length_mask, List.length_take]
      omega
    rw [List.map_cons, Frame.header_ofHeader hlen]
    exact List.prefix_append [h] _

/-! ## Where a pass leaves the calls -/

/-- The octets of payload that a call hands on. -/
def Call.chunk : Call → List UInt8
  | .frameRecvChunk data => data
  | _ => []

/-- Why the pass from `t` to `u` has ended a frame with payload `body` and has not
delivered the message it completes; `T` are all calls. -/
inductive Withheld (t u : EventContext × Io) (h : Header) (body : List UInt8) (T : List Call) : Prop
  /-- It is a Close, and is rejected for its status code. -/
  | status : h.opcode = 8 → 2 ≤ body.length → eventIsValidStatusCode (statusOf body) = false →
      Withheld t u h body T
  /-- It is a Close, and the reply could not be queued. -/
  | reply (s : EventContext × Io) (r : Int) : h.opcode = 8 → r ≠ 0 →
      acceptClose body s.1 s.2 = .leave r u → Withheld t u h body T
  /-- There is no memory. -/
  | memory : ¬ t.2.MemOk → Withheld t u h body T
  /-- The message is longer than `size_t` can tell. -/
  | length : 2 ^ 64 ≤ (T.flatMap Call.chunk).length → Withheld t u h body T

/-- **Where the pass from `t` to `u` leaves the calls `T`**, which are about the
frames with headers `hs`. -/
inductive PassLeaves (t u : EventContext × Io) : List Header → List Call → Prop
  /-- Between two frames. -/
  | between {hs : List Header} {T : List Call} : Groups hs T → PassLeaves t u hs T
  /-- Inside a frame.  As long as reading goes on a part of it has come, and a part is
  missing. -/
  | within {hs : List Header} {T : List Call} (h : Header) (chunks : List (List UInt8)) :
      Groups hs T → chunks.flatten.length ≤ h.length →
      (u.1.readEnabled = true → chunks ≠ [] ∧ chunks.flatten.length < h.length) →
      PassLeaves t u (hs ++ [h]) (T ++ h.startCall :: chunks.map Call.frameRecvChunk)
  /-- Behind a frame whose message is withheld. -/
  | withheld {hs : List Header} {T : List Call} (h : Header) (chunks : List (List UInt8)) :
      Groups hs T → chunks ≠ [] → chunks.flatten.length = h.length → h.fin = true →
      u.1.readEnabled = false →
      Withheld t u h chunks.flatten
        (T ++ h.startCall :: (chunks.map Call.frameRecvChunk ++ [Call.frameRecvEnd])) →
      PassLeaves t u (hs ++ [h])
        (T ++ h.startCall :: (chunks.map Call.frameRecvChunk ++ [Call.frameRecvEnd]))

/-- Every header has a delivery. -/
theorem Header.exists_delivery (h : Header) : ∃ calls, h.Delivery calls := by
  by_cases hfin : h.fin = true
  · refine ⟨[msgCall 0 []], ?_⟩
    rw [Header.Delivery, if_pos hfin]
    exact ⟨0, [], rfl⟩
  · refine ⟨[], ?_⟩
    rw [Header.Delivery, if_neg hfin]

/-- **Wherever a pass leaves the calls, they are the front of a sequence of groups.** -/
theorem PassLeaves.inOrder {t u : EventContext × Io} {hs : List Header} {T : List Call}
    (hp : PassLeaves t u hs T) : ∃ rest, Groups hs (T ++ rest) := by
  cases hp with
  | between hg =>
    refine ⟨[], ?_⟩
    rw [List.append_nil]
    exact hg
  | within h chunks hg hle _ =>
    -- the rest of the payload comes in one piece
    obtain ⟨msg, hmsg⟩ := h.exists_delivery
    have hfull : (chunks ++ [List.replicate (h.length - chunks.flatten.length) 0]).flatten.length =
        h.length := by
      rw [List.flatten_append, List.length_append, List.flatten_singleton, List.length_replicate]
      omega
    refine ⟨.frameRecvChunk (List.replicate (h.length - chunks.flatten.length) 0) ::
      .frameRecvEnd :: msg, ?_⟩
    have hgroup := Groups.frame h _ msg hg (by simp) hfull hmsg
    rw [List.map_append] at hgroup
    simpa using hgroup
  | withheld h chunks hg hne hlen _ _ _ =>
    obtain ⟨msg, hmsg⟩ := h.exists_delivery
    refine ⟨msg, ?_⟩
    have hgroup := Groups.frame h chunks msg hg hne hlen hmsg
    simpa using hgroup

/-! ## The invariant -/

/-- What has been told of the frame `f` in progress: of its payload, `acc`. -/
structure Progress.Told (f : Progress) (hs : List Header) (acc : List UInt8) (T : List Call) :
    Prop where
  calls : ∃ (T₀ : List Call) (chunks : List (List UInt8)), Groups hs T₀ ∧ chunks.flatten = acc ∧
    T = T₀ ++ f.header.startCall :: chunks.map Call.frameRecvChunk
  off : acc.length = f.off
  opcode : f.header.opcode ≠ 0 → f.draft.opcode = f.header.opcode
  body : 8 ≤ f.header.opcode.val → f.draft.body = acc

/-- The octets that the receiver keeps. -/
def Rx.held (rx : Rx) : Nat :=
  ((rx.waiting.map fun k => k.body.length).getD 0) +
    ((rx.frame.map fun f => f.draft.body.length).getD 0)

/-- **What has been told of the octets `new`.**  The frames with headers `hs` have
been dealt with, and the calls for them and for the frame in progress are `T`. -/
structure Tells (cfg : RxConfig) (callbacks : EventCallbacks) (t : EventContext × Io) (rx : Rx)
    (d : Dec) (look : List UInt8) (hs : List Header) (acc new : List UInt8) (T : List Call) :
    Prop where
  listens : Listens cfg t rx d look
  sound : rx.Sound cfg
  callbacks : t.1.callbacks = callbacks
  octets : ∃ fs : List Frame, (∀ f ∈ fs, f.header.Valid) ∧ hs = fs.map Frame.header ∧
    new = fs.flatMap Frame.encode ++ (d.octets acc ++ look)
  holds : d.Holds acc
  held : rx.held ≤ (T.flatMap Call.chunk).length
  told : match rx.frame with
    | none => Groups hs T
    | some f => f.Told hs acc T

section

variable {cfg : RxConfig} {callbacks : EventCallbacks} {t u : EventContext × Io} {rx : Rx} {d : Dec}
  {look acc new : List UInt8} {hs : List Header} {T : List Call}

/-- As long as nothing more is told, a pass leaves the calls where they were. -/
theorem Tells.leaves (ht : Tells cfg callbacks t rx d look hs acc new T) (s u : EventContext × Io) :
    ∃ hs', PassLeaves s u hs' T ∧ ∀ more, hs' <+: headersOf (new ++ more) := by
  obtain ⟨fs, hfs, rfl, rfl⟩ := ht.octets
  have htold := ht.told
  have hplace := ht.listens.place
  have hstate := ht.listens.models.state
  have hall : ∀ more, headersOf (fs.flatMap Frame.encode ++ (d.octets acc ++ look) ++ more) =
      fs.map Frame.header ++ headersOf (d.octets acc ++ look ++ more) := by
    intro more
    rw [List.append_assoc, headersOf_frames hfs]
  cases hf : rx.frame with
  | none =>
    rw [hf] at htold
    refine ⟨_, .between htold, fun more => ?_⟩
    rw [hall]
    exact List.prefix_append _ _
  | some f =>
    unfold Rx.Place at hplace
    simp only [hf] at htold hplace hstate
    obtain ⟨hi, hpos, hlt⟩ := hstate
    obtain ⟨T₀, chunks, hg, hflat, hT⟩ := htold.calls
    have hoff := htold.off
    have hlen : chunks.flatten.length < f.header.length := by
      rw [hflat]
      omega
    refine ⟨fs.map Frame.header ++ [f.header], ?_, fun more => ?_⟩
    · rw [hT]
      refine .within f.header chunks hg (Nat.le_of_lt hlen) fun _ => ⟨?_, hlen⟩
      rintro rfl
      rw [← hflat] at hoff
      exact absurd hoff (Nat.ne_of_lt hpos)
    · rw [hall, hplace, List.prefix_append_right_inj, Dec.octets]
      simp only [List.append_assoc]
      exact headersOf_encode hi.valid _

/-! ## The beginning of a frame -/

/-- The draft that a frame which begins goes into. -/
theorem admits_draft {waiting rest : Option Draft} {h : Header} {f : Progress}
    (ha : Rx.admits cfg waiting h = .ok (f, rest)) :
    f.header = h ∧ f.off = 0 ∧ (h.opcode ≠ 0 → f.draft.opcode = h.opcode) ∧
      (8 ≤ h.opcode.val → f.draft.body = []) ∧ Rx.held ⟨rest, some f⟩ ≤ Rx.held ⟨waiting, none⟩ := by
  unfold Rx.admits at ha
  split_ifs at ha with hbits
  cases hb : belongs waiting h.opcode with
  | none => simp [hb] at ha
  | some x =>
    obtain ⟨k, rest'⟩ := x
    simp only [hb] at ha
    split_ifs at ha with hbig
    cases ha
    have hop : (k.extend cfg h).opcode = k.opcode := by
      unfold Draft.extend
      split_ifs <;> rfl
    have hbody : (k.extend cfg h).body = k.body := by
      unfold Draft.extend
      split_ifs <;> rfl
    refine ⟨rfl, rfl, ?_⟩
    simp only [Rx.held, hop, hbody, Option.map_some, Option.getD_some, Option.map_none,
      Option.getD_none]
    unfold belongs at hb
    cases waiting with
    | none =>
      simp only at hb
      split_ifs at hb
      cases hb
      exact ⟨fun _ => rfl, fun _ => rfl, Nat.le_refl _⟩
    | some k' =>
      simp only at hb
      split_ifs at hb with h0 hctrl
      · cases hb
        refine ⟨fun hne => absurd h0 hne, fun h8 => ?_, ?_⟩
        · rw [h0] at h8
          exact absurd h8 (by decide)
        · simp
      · cases hb
        exact ⟨fun _ => rfl, fun _ => rfl, Nat.le_refl _⟩

/-- **The frame that a piece belongs to**, after it has been announced. -/
theorem Tells.enter (ht : Tells cfg callbacks t rx d look hs acc new T) {h : Header} {calls : List Call}
    {f : Progress} {waiting : Option Draft} (he : rx.enter cfg h = .ok (calls, f, waiting))
    (hoff : acc.length = f.off) :
    f.Told hs acc (T ++ calls) ∧ (calls = [] ∨ calls = [h.startCall]) ∧
      Rx.held ⟨waiting, some f⟩ ≤ (T.flatMap Call.chunk).length := by
  have htold := ht.told
  have hheld := ht.held
  unfold Rx.enter at he
  cases hf : rx.frame with
  | some g =>
    simp only [hf] at he htold
    cases he
    rw [List.append_nil]
    refine ⟨htold, Or.inl rfl, ?_⟩
    rw [← hf]
    exact hheld
  | none =>
    simp only [hf] at he htold
    cases ha : Rx.admits cfg rx.waiting h with
    | error code => simp [ha] at he
    | ok x =>
      obtain ⟨g, rest⟩ := x
      rw [ha] at he
      cases he
      obtain ⟨hh, h0, hop, hbody, hless⟩ := admits_draft ha
      have hnil : acc = [] := List.length_eq_zero_iff.1 (hoff.trans h0)
      refine ⟨⟨⟨T, [], htold, hnil.symm, ?_⟩, hoff, ?_, ?_⟩, Or.inr rfl, ?_⟩
      · rw [hh]
        rfl
      · rw [hh]
        exact hop
      · rw [hh, hnil]
        exact hbody
      · refine hless.trans ?_
        rw [← hf]
        exact hheld

/-! ## A piece -/

/-- A piece of the frame has been handed on. -/
theorem Progress.Told.advance {f : Progress} (hf : f.Told hs acc T) (cfg : RxConfig)
    (data : List UInt8) (text : List Utf8.Range) :
    (f.advance cfg data text).Told hs (acc ++ data) (T ++ [.frameRecvChunk data]) where
  calls := by
    obtain ⟨T₀, chunks, hg, rfl, rfl⟩ := hf.calls
    refine ⟨T₀, chunks ++ [data], hg, by simp, ?_⟩
    change _ = T₀ ++ f.header.startCall :: (chunks ++ [data]).map Call.frameRecvChunk
    rw [List.map_append]
    simp
  off := by
    rw [List.length_append, hf.off]
    rfl
  opcode := hf.opcode
  body := by
    intro h8
    have hctrl : 8 ≤ f.header.opcode.val := h8
    change (if cfg.buffers f.header.opcode then f.draft.body ++ data else f.draft.body) = _
    rw [if_pos (cfg.buffers_ctrl hctrl), hf.body hctrl]

/-- A frame that has come to its end, and what follows. -/
theorem Progress.Told.group {f : Progress} (hf : f.Told hs acc T) {data : List UInt8}
    (hend : (acc ++ data).length = f.header.length) {msg : List Call} (hmsg : f.header.Delivery msg) :
    Groups (hs ++ [f.header]) (T ++ ([.frameRecvChunk data, .frameRecvEnd] ++ msg)) := by
  obtain ⟨T₀, chunks, hg, rfl, rfl⟩ := hf.calls
  have hlen : (chunks ++ [data]).flatten.length = f.header.length := by
    rw [← hend]
    simp
  have hgroup := Groups.frame f.header (chunks ++ [data]) msg hg (by simp) hlen hmsg
  rw [List.map_append] at hgroup
  simpa using hgroup

/-- A frame whose message is withheld. -/
theorem Progress.Told.withheld {f : Progress} (hf : f.Told hs acc T) {data : List UInt8}
    (hend : (acc ++ data).length = f.header.length) (hfin : f.header.fin = true)
    (hoff : u.1.readEnabled = false)
    (hw : Withheld t u f.header (acc ++ data) (T ++ [.frameRecvChunk data, .frameRecvEnd])) :
    PassLeaves t u (hs ++ [f.header]) (T ++ [.frameRecvChunk data, .frameRecvEnd]) := by
  obtain ⟨T₀, chunks, hg, rfl, rfl⟩ := hf.calls
  have hflat : (chunks ++ [data]).flatten = chunks.flatten ++ data := by simp
  have hcalls : T₀ ++ f.header.startCall :: ((chunks ++ [data]).map Call.frameRecvChunk ++
      [.frameRecvEnd]) = T₀ ++ f.header.startCall :: chunks.map Call.frameRecvChunk ++
        [.frameRecvChunk data, .frameRecvEnd] := by
    rw [List.map_append]
    simp
  rw [← hcalls] at hw ⊢
  exact .withheld f.header (chunks ++ [data]) hg (by simp) (by rw [hflat]; exact hend) hfin hoff
    (by rw [hflat]; exact hw)

/-- Inside a frame that is not complete, or that is given up. -/
theorem Progress.Told.within {f : Progress} (hf : f.Told hs acc T) (hle : acc.length ≤ f.header.length)
    (hon : u.1.readEnabled = true → acc ≠ [] ∧ acc.length < f.header.length) :
    PassLeaves t u (hs ++ [f.header]) T := by
  obtain ⟨T₀, chunks, hg, rfl, rfl⟩ := hf.calls
  refine .within f.header chunks hg hle fun h => ⟨?_, (hon h).2⟩
  rintro rfl
  exact (hon h).1 rfl

/-- As far as a piece has been taken when memory runs out. -/
theorem Progress.piece_front {skip : Nat} {f : Progress} {waiting : Option Draft}
    {data : List UInt8} {part : List Call} (h : part <+: (f.piece skip cfg waiting data).calls) :
    part = [] ∨ part = [.frameRecvChunk data] ∨
      part = [.frameRecvChunk data, .frameRecvEnd] ∧ f.off + data.length = f.header.length := by
  have hone : part <+: [.frameRecvChunk data] → part = [] ∨ part = [.frameRecvChunk data] := by
    intro h
    rcases List.prefix_cons_iff.1 h with rfl | ⟨t, rfl, ht⟩
    · exact Or.inl rfl
    · rw [List.prefix_nil.1 ht]
      exact Or.inr rfl
  have htwo : part <+: [.frameRecvChunk data, .frameRecvEnd] → part = [] ∨
      part = [.frameRecvChunk data] ∨ part = [.frameRecvChunk data, .frameRecvEnd] := by
    intro h
    rcases List.prefix_cons_iff.1 h with rfl | ⟨t, rfl, ht⟩
    · exact Or.inl rfl
    · rcases List.prefix_cons_iff.1 ht with rfl | ⟨t', rfl, ht'⟩
      · exact Or.inr (Or.inl rfl)
      · rw [List.prefix_nil.1 ht']
        exact Or.inr (Or.inr rfl)
  have hend : f.off + data.length = f.header.length →
      part <+: [.frameRecvChunk data, .frameRecvEnd] → part = [] ∨ part = [.frameRecvChunk data] ∨
        part = [.frameRecvChunk data, .frameRecvEnd] ∧ f.off + data.length = f.header.length :=
    fun heq hpre => (htwo hpre).imp_right (Or.imp_right fun hp => ⟨hp, heq⟩)
  rcases f.piece_cases skip cfg waiting data with ⟨-, hp⟩ | ⟨text, -, ⟨heq, hp⟩ | ⟨-, hp⟩⟩
  · rw [hp] at h
    exact Or.inl (List.prefix_nil.1 h)
  · rw [hp] at h
    rcases (f.advance cfg data text).finish_cases cfg waiting with hfin | ⟨-, hfin⟩ | ⟨-, hfin⟩ <;>
      rw [hfin] at h
    · exact (hone h).imp_right Or.inl
    · exact hend heq h
    · exact hend heq h
  · rw [hp] at h
    exact (hone h).imp_right Or.inl

/-- Where the calls are when memory has run out. -/
theorem Progress.Told.fails {f : Progress} (hf : f.Told hs acc T) {data : List UInt8}
    (hle : (acc ++ data).length ≤ f.header.length) (hoff : u.1.readEnabled = false)
    (hmem : ¬ t.2.MemOk) {part : List Call}
    (hpart : part = [] ∨ part = [.frameRecvChunk data] ∨
      part = [.frameRecvChunk data, .frameRecvEnd] ∧ f.off + data.length = f.header.length) :
    PassLeaves t u (hs ++ [f.header]) (T ++ part) := by
  have hout : ∀ {P : Prop}, u.1.readEnabled = true → P := fun h => by
    rw [hoff] at h
    cases h
  rcases hpart with rfl | rfl | ⟨rfl, hend⟩
  · rw [List.append_nil]
    rw [List.length_append] at hle
    exact hf.within (by omega) hout
  · exact (hf.advance ⟨false, false, 0, false⟩ data []).within hle hout
  · have hfull : (acc ++ data).length = f.header.length := by
      rw [List.length_append, hf.off]
      exact hend
    by_cases hfin : f.header.fin = true
    · exact hf.withheld hfull hfin hoff (.memory hmem)
    · have hmsg : f.header.Delivery [] := by
        rw [Header.Delivery, if_neg hfin]
      have hgroup := hf.group hfull hmsg
      rw [List.append_nil] at hgroup
      exact .between hgroup

/-! ## The end of a message -/

/-- A message overflows only if it is longer than its counter can tell. -/
theorem Draft.Counts.overflow {k : Draft} {waiting : Option Draft} (hk : k.Counts cfg 0)
    (hv : k.verdict cfg waiting = .overflow) : 2 ^ 64 ≤ k.body.length := by
  by_contra hsmall
  unfold Draft.verdict at hv
  rw [hk.gather (by omega)] at hv
  simp only at hv
  split_ifs at hv

/-- A message is rejected at its end only if it is a Close with an invalid status
code. -/
theorem Draft.Counts.rejects {k : Draft} {waiting : Option Draft} {code : Nat} (hk : k.Counts cfg 0)
    (hsmall : 8 ≤ k.opcode.val → k.body.length ≤ 125) (hv : k.verdict cfg waiting = .reject code) :
    k.opcode = 8 ∧ 2 ≤ k.body.length ∧ eventIsValidStatusCode (statusOf k.body) = false := by
  unfold Draft.verdict at hv
  split_ifs at hv
  cases hg : k.gather with
  | none => simp [hg] at hv
  | some msg =>
    simp only [hg] at hv
    split_ifs at hv with hbad
    have hle := hsmall (by rw [hbad.1]; decide)
    rw [hk.gather (by omega)] at hg
    cases hg
    exact hbad

/-- A Close is delivered as it is. -/
theorem Draft.Counts.close {k : Draft} {waiting : Option Draft} {msg : List UInt8} {rx' : Rx}
    (hk : k.Counts cfg 0) (hsmall : 8 ≤ k.opcode.val → k.body.length ≤ 125)
    (hv : k.verdict cfg waiting = .done 8 msg rx') : k.opcode = 8 ∧ msg = k.body := by
  have h8 : k.opcode = 8 := (Draft.verdict_done hv).1.symm
  have hle := hsmall (by rw [h8]; decide)
  unfold Draft.verdict at hv
  rw [if_pos (by simp [h8]), hk.gather (by omega)] at hv
  simp only at hv
  split_ifs at hv
  simp only [Verdict.done.injEq] at hv
  exact ⟨h8, hv.2.1.symm⟩

/-- The automatic reply to a message leaves the loop only if it is a Close that could
not be answered, or if there is no memory. -/
theorem recvReply_leaves {opcode : Fin 16} {msg : List UInt8} {s s' : EventContext × Io} {r : Int}
    (hlen : opcode = 9 → msg.length ≤ 125) (h : recvReply opcode msg s = .leave r s') :
    opcode = 8 ∧ r ≠ 0 ∧ acceptClose msg s.1 s.2 = .leave r s' ∨ ¬ s.2.MemOk := by
  unfold recvReply at h
  by_cases h8 : opcode = 8
  · rw [if_pos h8] at h
    refine Or.inl ⟨h8, ?_, h⟩
    rintro rfl
    unfold acceptClose at h
    dsimp only at h
    generalize eventQueueCloseWrapper _ _ _ _ = answer at h
    obtain ⟨r, c, io⟩ := answer
    by_cases hr : r ≠ 0
    · rw [if_pos hr] at h
      simp only [Step.leave.injEq] at h
      exact hr h.1
    · rw [if_neg hr] at h
      cases h
  · rw [if_neg h8] at h
    right
    intro hmem
    by_cases h9 : opcode = 9
    · rw [if_pos h9] at h
      obtain ⟨s'', heq, -⟩ := recvPing_follows (q := eventIsMsgQueueable s.1) rfl hmem (hlen h9) .fresh
      rw [heq] at h
      cases h
    · rw [if_neg h9] at h
      cases h

/-! ## One pass -/

/-- What the pass from `t` to `u` adds to the octets `new` and the calls `T`. -/
def Adds (cfg : RxConfig) (callbacks : EventCallbacks) (t u : EventContext × Io)
    (new : List UInt8) (T : List Call) : Prop :=
  ∃ more L hs, u.2.calls = t.2.calls ++ L.filter callbacks.takes ∧
    u.2.received = t.2.received ++ more ∧ PassLeaves t u hs (T ++ L) ∧
    hs <+: headersOf (new ++ more) ∧
    (u.1.readEnabled = true → ∃ rx d look hs acc,
      Tells cfg callbacks u rx d look hs acc (new ++ more) (T ++ L))

theorem Tells.adds (ht : Tells cfg callbacks t rx d look hs acc new T) {s : EventContext × Io}
    {bs : List UInt8} (hdel : Delivers t.2 bs s.2) {L : List Call} {hs' : List Header}
    (hcalls : u.2.calls = s.2.calls ++ L.filter s.1.callbacks.takes)
    (hreceived : u.2.received = s.2.received) (hs : s.1.callbacks = t.1.callbacks)
    (hleaves : PassLeaves t u hs' (T ++ L)) (hpre : hs' <+: headersOf (new ++ bs))
    (hon : u.1.readEnabled = true → ∃ rx d look hs acc,
      Tells cfg callbacks u rx d look hs acc (new ++ bs) (T ++ L)) :
    Adds cfg callbacks t u new T := by
  refine ⟨bs, L, hs', ?_, hreceived.trans hdel.received, hleaves, hpre, hon⟩
  rw [hcalls, hdel.calls, hs, ht.callbacks]

/-- Nothing has been told. -/
theorem Tells.stays (ht : Tells cfg callbacks t rx d look hs acc new T) {s : EventContext × Io}
    {bs : List UInt8} (hdel : Delivers t.2 bs s.2) (hcalls : u.2.calls = s.2.calls)
    (hreceived : u.2.received = s.2.received) (hs : s.1.callbacks = t.1.callbacks)
    (hon : u.1.readEnabled = true → ∃ rx d look hs acc,
      Tells cfg callbacks u rx d look hs acc (new ++ bs) T) : Adds cfg callbacks t u new T := by
  obtain ⟨hs', hleaves, hpre⟩ := ht.leaves t u
  refine ht.adds hdel (L := []) ?_ hreceived hs ?_ (hpre bs) ?_
  · rw [hcalls, List.filter_nil, List.append_nil]
  · rw [List.append_nil]
    exact hleaves
  · rw [List.append_nil]
    exact hon

/-- A call of `wslay_frame_recv` has read more, and waits. -/
theorem Tells.waits (ht : Tells cfg callbacks t rx d look hs acc new T) {bs : List UInt8} {d' : Dec}
    {look' hdr : List UInt8} (hl : Listens cfg (fed t) rx d' look')
    (hlook : look ++ bs = hdr ++ look')
    (hwhere : d' = d ∧ hdr = [] ∨ ∃ h, d = .head ∧ d' = .body h 0 ∧ hdr = h.encode) :
    Tells cfg callbacks (fed t) rx d' look' hs acc (new ++ bs) T := by
  obtain ⟨hacc, hoct⟩ := ht.holds.wait hwhere
  obtain ⟨fs, hfs, hmap, hnew⟩ := ht.octets
  refine ⟨hl, ht.sound, ht.callbacks, ⟨fs, hfs, hmap, ?_⟩, hacc, ht.held, ht.told⟩
  rw [hnew, hoct, List.append_assoc, List.append_assoc, hlook, List.append_assoc]

/-- Where the octets stand after a piece: inside its frame, or behind it. -/
theorem Tells.octets_piece (ht : Tells cfg callbacks t rx d look hs acc new T)
    {bs hdr raw look' : List UInt8} {h : Header} {off : Nat} (hv : h.Valid)
    (hlook : look ++ bs = hdr ++ (raw ++ look')) (henter : d.Enters hdr h off) :
    hs ++ [h] <+: headersOf (new ++ bs) ∧
      (∃ fs : List Frame, (∀ f ∈ fs, f.header.Valid) ∧ hs = fs.map Frame.header ∧
        new ++ bs = fs.flatMap Frame.encode ++
          (h.encode ++ (h.mask 0 (acc ++ h.mask off raw) ++ look'))) ∧
      (off + raw.length = h.length → ∃ fs : List Frame, (∀ f ∈ fs, f.header.Valid) ∧
        hs ++ [h] = fs.map Frame.header ∧ new ++ bs = fs.flatMap Frame.encode ++ look') := by
  obtain ⟨hlen, hoct⟩ := ht.holds.piece henter raw look'
  obtain ⟨fs, hfs, rfl, hnew⟩ := ht.octets
  have hall : new ++ bs = fs.flatMap Frame.encode ++
      (h.encode ++ (h.mask 0 (acc ++ h.mask off raw) ++ look')) := by
    rw [hnew, List.append_assoc, List.append_assoc, hlook, hoct]
  refine ⟨?_, ⟨fs, hfs, rfl, hall⟩, fun hend => ?_⟩
  · rw [hall, headersOf_frames hfs, List.prefix_append_right_inj]
    exact headersOf_encode hv _
  · have hfull : (acc ++ h.mask off raw).length = h.length := by
      rw [List.length_append, Header.length_mask, hlen, hend]
    have hheader := Frame.header_ofHeader hfull
    refine ⟨fs ++ [Frame.ofHeader h (acc ++ h.mask off raw)], ?_, ?_, ?_⟩
    · intro f hf
      rcases List.mem_append.1 hf with hf | hf
      · exact hfs f hf
      · rw [List.mem_singleton.1 hf, hheader]
        exact hv
    · rw [List.map_append, List.map_singleton, hheader]
    · rw [hall, List.flatMap_append, List.flatMap_singleton, Frame.encode, hheader]
      simp only [List.append_assoc]
      rfl

theorem held_advance (cfg : RxConfig) (f : Progress) (waiting : Option Draft) (data : List UInt8)
    (text : List Utf8.Range) :
    Rx.held ⟨waiting, some (f.advance cfg data text)⟩ ≤ Rx.held ⟨waiting, some f⟩ + data.length := by
  have hbody : (f.advance cfg data text).draft.body =
      if cfg.buffers f.header.opcode then f.draft.body ++ data else f.draft.body := rfl
  simp only [Rx.held, Option.map_some, Option.getD_some, hbody]
  split_ifs
  · rw [List.length_append]
    omega
  · omega

/-- The automatic reply calls nobody and reads nothing. -/
theorem recvReply_keeps (opcode : Fin 16) (msg : List UInt8) (s : EventContext × Io) :
    (recvReply opcode msg s).state.1.callbacks = s.1.callbacks ∧
      (recvReply opcode msg s).state.2.calls = s.2.calls ∧
      (recvReply opcode msg s).state.2.received = s.2.received := by
  have hspares : ∀ {s s' : EventContext × Io}, Spares s s' → s'.1.callbacks = s.1.callbacks ∧
      s'.2.calls = s.2.calls ∧ s'.2.received = s.2.received := by
    intro s s' hsp
    have hc := hsp.context
    simp only [EventContext.rxPart, Prod.mk.injEq] at hc
    exact ⟨hc.2.2.2.2.1, hsp.calls, hsp.received⟩
  unfold recvReply
  by_cases h8 : opcode = 8
  · rw [if_pos h8, acceptClose]
    dsimp only
    have hsp := (eventQueueCloseWrapper_spares { s.1 with
        closeStatus := { s.1.closeStatus with received := true }
        statusCodeRecv := if statusOf msg = 0 then codeNoStatusRcvd else statusOf msg }
      (UInt16.ofNat (statusOf msg)) (msg.drop 2) s.2).1
    generalize eventQueueCloseWrapper _ _ _ _ = answer at hsp ⊢
    obtain ⟨r, c, io⟩ := answer
    have hkeeps := hspares hsp
    by_cases hr : r ≠ 0
    · rw [if_pos hr]
      exact hkeeps
    · rw [if_neg hr]
      exact hkeeps
  · rw [if_neg h8]
    by_cases h9 : opcode = 9
    · rw [if_pos h9, recvPing]
      have hkeeps := hspares (eventQueueMsg_spares s.1 ⟨pong, msg⟩ s.2)
      generalize eventQueueMsg s.1 ⟨pong, msg⟩ s.2 = answer at hkeeps ⊢
      obtain ⟨r, c, io⟩ := answer
      dsimp only
      by_cases hr : r ≠ 0 ∧ r ≠ Err.noMoreMsg.code
      · rw [if_pos hr]
        exact hkeeps
      · rw [if_neg hr]
        exact hkeeps
    · rw [if_neg h9]
      exact ⟨rfl, rfl, rfl⟩

/-- What has been told when the receiver goes on behind a piece. -/
theorem Tells.next (ht : Tells cfg callbacks t rx d look hs acc new T) {bs hdr raw look' : List UInt8}
    {h : Header} {off : Nat} {d' : Dec} {rx' : Rx}
    (hp : TakesPiece cfg t (fed t) rx d (look ++ bs) h off hdr raw d' look')
    (hv : (rx.piece 2 cfg h (h.mask off raw)).verdict = .more rx' ∨
      ∃ opcode msg, (rx.piece 2 cfg h (h.mask off raw)).verdict = .done opcode msg rx')
    (hsame : SameInput (fed t) u) (hm : Models cfg u.1 rx') (hcb : u.1.callbacks = t.1.callbacks)
    {hs' : List Header} {acc' : List UInt8} {T' : List Call}
    (hoctets : ∃ fs : List Frame, (∀ f ∈ fs, f.header.Valid) ∧ hs' = fs.map Frame.header ∧
      new ++ bs = fs.flatMap Frame.encode ++ (d'.octets acc' ++ look'))
    (hholds : d'.Holds acc') (hheld : rx'.held ≤ (T'.flatMap Call.chunk).length)
    (htold : match rx'.frame with
      | none => Groups hs' T'
      | some f => f.Told hs' acc' T') :
    Tells cfg callbacks u rx' d' look' hs' acc' (new ++ bs) T' where
  listens := ⟨hp.ready.congr hsame.frame, hm,
    hp.after ▸ ht.listens.place.piece hp.enters hp.fits hp.empty hv⟩
  sound := by
    have hnext := ht.listens.place.sound ht.sound hp.enters hp.valid hp.fits 2
    rcases hv with hv | ⟨opcode, msg, hv⟩
    · rw [hv] at hnext
      exact hnext
    · rw [hv] at hnext
      exact hnext.1
  callbacks := hcb.trans ht.callbacks
  octets := hoctets
  holds := hholds
  held := hheld
  told := htold

/-! ## The piece that a pass has read -/

/-- Reading is over, and does not go on. -/
theorem enabled_elim {P : Prop} (hoff : u.1.readEnabled = false) (hon : u.1.readEnabled = true) : P :=
  absurd (hoff.symm.trans hon) (by decide)

/-- **A piece that the pass has read**: where it stands in the stream, and the frame
that it belongs to; `calls` announce the frame if it is new. -/
structure PieceRead (ht : Tells cfg callbacks t rx d look hs acc new T) where
  bs : List UInt8
  hdr : List UInt8
  raw : List UInt8
  look' : List UInt8
  off : Nat
  d' : Dec
  f : Progress
  waiting : Option Draft
  calls : List Call
  delivers : Delivers t.2 bs (fed t).2
  takes : TakesPiece cfg t (fed t) rx d (look ++ bs) f.header off hdr raw d' look'
  enters : rx.enter cfg f.header = .ok (calls, f, waiting)

variable {ht : Tells cfg callbacks t rx d look hs acc new T}

/-- The octets of the payload. -/
def PieceRead.data (p : PieceRead ht) : List UInt8 := p.f.header.mask p.off p.raw

theorem PieceRead.off_eq (p : PieceRead ht) : p.f.off = p.off :=
  (ht.listens.place.enter p.takes.enters p.enters).2

theorem PieceRead.length_acc (p : PieceRead ht) : acc.length = p.off :=
  (ht.holds.piece p.takes.enters p.raw p.look').1

theorem PieceRead.length_data (p : PieceRead ht) : p.data.length = p.raw.length :=
  Header.length_mask ..

theorem PieceRead.length_told (p : PieceRead ht) :
    (acc ++ p.data).length = p.f.off + p.data.length := by
  rw [List.length_append, p.length_acc, p.off_eq]

theorem PieceRead.fits (p : PieceRead ht) : (acc ++ p.data).length ≤ p.f.header.length := by
  rw [List.length_append, p.length_acc, p.length_data]
  exact p.takes.fits

/-- The frame has been announced, and as much of it told as has come. -/
theorem PieceRead.told (p : PieceRead ht) : p.f.Told hs acc (T ++ p.calls) :=
  (ht.enter p.enters (p.length_acc.trans p.off_eq.symm)).1

theorem PieceRead.announced (p : PieceRead ht) :
    p.calls = [] ∨ p.calls = [p.f.header.startCall] :=
  (ht.enter p.enters (p.length_acc.trans p.off_eq.symm)).2.1

/-- The header of the frame is one that the stream shows. -/
theorem PieceRead.front (p : PieceRead ht) : hs ++ [p.f.header] <+: headersOf (new ++ p.bs) :=
  (ht.octets_piece p.takes.valid p.takes.octets p.takes.enters).1

/-- What the receiver holds with the piece has been handed on. -/
theorem PieceRead.held (p : PieceRead ht) (text : List Utf8.Range) (more : List Call) :
    Rx.held ⟨p.waiting, some (p.f.advance cfg p.data text)⟩ ≤
      ((T ++ (p.calls ++ Call.frameRecvChunk p.data :: more)).flatMap Call.chunk).length := by
  have hheld := (ht.enter p.enters (p.length_acc.trans p.off_eq.symm)).2.2
  have hadvance := held_advance cfg p.f p.waiting p.data text
  have hall : (T.flatMap Call.chunk).length + p.data.length ≤
      ((T ++ (p.calls ++ Call.frameRecvChunk p.data :: more)).flatMap Call.chunk).length := by
    rcases p.announced with hc | hc <;> rw [hc] <;> simp [Call.chunk, Header.startCall]
  omega

/-- The frame with the piece is sound. -/
theorem PieceRead.sound (p : PieceRead ht) (text : List Utf8.Range) :
    (p.f.advance cfg p.data text).Sound cfg := by
  refine ((ht.sound.enter p.takes.valid p.enters).frame p.f rfl).advance ?_ text
  rw [← p.length_told]
  exact p.fits

/-- The piece has been handed on. -/
theorem PieceRead.told_advance (p : PieceRead ht) (text : List Utf8.Range) :
    (p.f.advance cfg p.data text).Told hs (acc ++ p.data)
      (T ++ (p.calls ++ [.frameRecvChunk p.data])) := by
  have h := p.told.advance cfg p.data text
  rwa [List.append_assoc] at h

/-- Memory has run out. -/
theorem PieceRead.noMemory (p : PieceRead ht)
    (hout : MemFails (fed t) (recvPass t) (rx.piece 2 cfg p.f.header p.data).calls) :
    Adds cfg callbacks t (recvPass t).state new T := by
  rw [Rx.piece_ok p.enters] at hout
  obtain ⟨hmem, r, s', heq, -, hoff, made, hmade, hcalls, hreceived⟩ := hout
  rw [Io.MemOk, p.delivers.mem] at hmem
  rw [heq]
  by_cases hnil : made = []
  · rw [hnil, List.filter_nil, List.append_nil] at hcalls
    exact ht.stays p.delivers hcalls hreceived rfl (enabled_elim hoff)
  · obtain ⟨part, rfl, hpart⟩ : ∃ part, made = p.calls ++ part ∧
        part <+: (p.f.piece 2 cfg p.waiting p.data).calls := by
      rcases p.announced with hc | hc <;> rw [hc] at hmade ⊢
      · exact ⟨made, rfl, hmade⟩
      · rcases List.prefix_cons_iff.1 hmade with rfl | ⟨part, rfl, hpart⟩
        · exact absurd rfl hnil
        · exact ⟨part, rfl, hpart⟩
    refine ht.adds p.delivers hcalls hreceived rfl ?_ p.front (enabled_elim hoff)
    rw [← List.append_assoc]
    exact p.told.fails p.fits hoff hmem (Progress.piece_front hpart)

/-- The message is rejected, and reading is over. -/
theorem PieceRead.rejects (p : PieceRead ht) {code : Nat} {s' : EventContext × Io} {L : List Call}
    (heq : recvPass t = failWith code s'.1 s'.2) (hw : Works (fed t) s' L)
    (hleaves : ∀ u : EventContext × Io, u.1.readEnabled = false →
      PassLeaves t u (hs ++ [p.f.header]) (T ++ L)) :
    Adds cfg callbacks t (recvPass t).state new T := by
  obtain ⟨r, s'', hleave, hsp, hoff⟩ := failWith_leave code s'
  rw [heq, hleave]
  exact ht.adds p.delivers (hsp.calls.trans hw.calls) (hsp.received.trans hw.received) rfl
    (hleaves _ hoff) p.front (enabled_elim hoff)

/-- Some payload is missing. -/
theorem PieceRead.goesOn (p : PieceRead ht) {text : List Utf8.Range}
    (hnot : p.f.off + p.data.length ≠ p.f.header.length)
    (hpiece : rx.piece 2 cfg p.f.header p.data =
      ⟨p.calls ++ [.frameRecvChunk p.data], .more ⟨p.waiting, some (p.f.advance cfg p.data text)⟩⟩)
    (hout : Outcome cfg (fed t) (recvPass t) (rx.piece 2 cfg p.f.header p.data)) :
    Adds cfg callbacks t (recvPass t).state new T := by
  rw [hpiece] at hout
  obtain ⟨u, heq, hw, hm⟩ := hout
  have hlt : (acc ++ p.data).length < p.f.header.length :=
    lt_of_le_of_ne p.fits (by rw [p.length_told]; exact hnot)
  have hsum : p.off + p.raw.length < p.f.header.length := by
    rw [← p.off_eq, ← p.length_data, ← p.length_told]
    exact hlt
  have hd' : p.d' = .body p.f.header (p.off + p.raw.length) := by
    rw [p.takes.after, Dec.after, if_neg (by omega)]
  have hsome : acc ++ p.data ≠ [] := by
    intro hnil
    obtain ⟨-, hnil⟩ := List.append_eq_nil_iff.1 hnil
    have hraw : p.raw = [] := List.length_eq_zero_iff.1 (by rw [← p.length_data, hnil]; rfl)
    have hall := p.takes.empty hraw
    rw [hraw, List.length_nil] at hsum
    omega
  obtain ⟨-, hinside, -⟩ := ht.octets_piece p.takes.valid p.takes.octets p.takes.enters
  have hg := p.told_advance text
  rw [heq]
  refine ht.adds p.delivers hw.calls hw.received rfl
    (hg.within p.fits fun _ => ⟨hsome, hlt⟩) p.front fun _ =>
      ⟨_, p.d', p.look', hs, acc ++ p.data,
        ht.next p.takes (Or.inl (congrArg Reaction.verdict hpiece)) hw.sameInput hm hw.callbacks
          ?_ ?_ (p.held text []) hg⟩
  · rw [hd']
    simp only [Dec.octets, List.append_assoc]
    exact hinside
  · rw [hd']
    show (acc ++ p.data).length = p.off + p.raw.length
    rw [p.length_told, p.off_eq, p.length_data]

/-- What has been told when the receiver waits for the next frame. -/
theorem PieceRead.nextFrame (p : PieceRead ht) (hfull : (acc ++ p.data).length = p.f.header.length)
    {k : Option Draft}
    (hv : (rx.piece 2 cfg p.f.header p.data).verdict = .more ⟨k, none⟩ ∨
      ∃ opcode msg, (rx.piece 2 cfg p.f.header p.data).verdict = .done opcode msg ⟨k, none⟩)
    (hsame : SameInput (fed t) u) (hm : Models cfg u.1 ⟨k, none⟩)
    (hcb : u.1.callbacks = t.1.callbacks) {T' : List Call}
    (hheld : Rx.held ⟨k, none⟩ ≤ (T'.flatMap Call.chunk).length)
    (hgroup : Groups (hs ++ [p.f.header]) T') :
    ∃ rx d look hs acc, Tells cfg callbacks u rx d look hs acc (new ++ p.bs) T' := by
  have hsum : p.off + p.raw.length = p.f.header.length := by
    rw [← p.off_eq, ← p.length_data, ← p.length_told]
    exact hfull
  have hd' : p.d' = .head := by
    rw [p.takes.after, Dec.after, if_pos hsum.symm]
  obtain ⟨-, -, hbehind⟩ := ht.octets_piece p.takes.valid p.takes.octets p.takes.enters
  refine ⟨_, p.d', p.look', _, [], ht.next p.takes hv hsame hm hcb ?_ ?_ hheld hgroup⟩
  · rw [hd']
    exact hbehind hsum
  · rw [hd']
    rfl

/-- The message goes on with its next frame. -/
theorem PieceRead.frameEnds (p : PieceRead ht) {text : List Utf8.Range}
    (hfull : (acc ++ p.data).length = p.f.header.length) (hfin : p.f.header.fin = false)
    (hpiece : rx.piece 2 cfg p.f.header p.data =
      ⟨p.calls ++ [.frameRecvChunk p.data, .frameRecvEnd],
        .more ⟨some (p.f.advance cfg p.data text).draft, none⟩⟩)
    (hout : Outcome cfg (fed t) (recvPass t) (rx.piece 2 cfg p.f.header p.data)) :
    Adds cfg callbacks t (recvPass t).state new T := by
  rw [hpiece] at hout
  obtain ⟨u, heq, hw, hm⟩ := hout
  have hmsg : p.f.header.Delivery [] := by
    rw [Header.Delivery, if_neg (by rw [hfin]; decide)]
  have hgroup := p.told.group hfull hmsg
  rw [List.append_nil, List.append_assoc] at hgroup
  have hheld : Rx.held ⟨some (p.f.advance cfg p.data text).draft, none⟩ ≤
      ((T ++ (p.calls ++ [Call.frameRecvChunk p.data, .frameRecvEnd])).flatMap Call.chunk).length := by
    refine Nat.le_trans ?_ (p.held text [.frameRecvEnd])
    simp only [Rx.held, Option.map_some, Option.getD_some, Option.map_none, Option.getD_none]
    omega
  rw [heq]
  exact ht.adds p.delivers hw.calls hw.received rfl (.between hgroup) p.front fun _ =>
    p.nextFrame hfull (Or.inl (congrArg Reaction.verdict hpiece)) hw.sameInput hm hw.callbacks
      hheld hgroup

/-! ## The piece that completes a message -/

/-- The draft of a frame that has come to its end counts its octets, and is short
if the frame is a control frame. -/
theorem PieceRead.counts (p : PieceRead ht) (text : List Utf8.Range)
    (hfull : (acc ++ p.data).length = p.f.header.length) :
    (p.f.advance cfg p.data text).draft.Counts cfg 0 ∧
      (8 ≤ (p.f.advance cfg p.data text).draft.opcode.val →
        (p.f.advance cfg p.data text).draft.body.length ≤ 125) := by
  have hg := p.sound text
  have hoff : (p.f.advance cfg p.data text).off = p.f.header.length := by
    rw [← hfull, p.length_told]
    rfl
  refine ⟨?_, fun h8 => ?_⟩
  · have hc := hg.counts
    rwa [show (p.f.advance cfg p.data text).header.length = p.f.header.length from rfl, hoff,
      Nat.sub_self] at hc
  · rw [hg.ctrl h8, hoff]
    exact (hg.fin h8).2

/-- A draft with the opcode of a Close is that of one frame, and holds its payload. -/
theorem PieceRead.close (p : PieceRead ht) {text : List Utf8.Range}
    (h8 : (p.f.advance cfg p.data text).draft.opcode = 8) :
    p.f.header.opcode = 8 ∧ (p.f.advance cfg p.data text).draft.body = acc ++ p.data := by
  have hctrl : 8 ≤ p.f.header.opcode.val := (p.sound text).kind.2 (by rw [h8]; decide)
  have hadv := p.told_advance text
  refine ⟨?_, hadv.body hctrl⟩
  rw [← h8]
  refine (hadv.opcode fun h0 => ?_).symm
  rw [show p.f.header.opcode = 0 from h0] at hctrl
  exact absurd hctrl (by decide)

/-- The frame has been closed, and its message is withheld. -/
theorem PieceRead.withheld (p : PieceRead ht) (hfull : (acc ++ p.data).length = p.f.header.length)
    (hfin : p.f.header.fin = true) (hoff : u.1.readEnabled = false)
    (hw : Withheld t u p.f.header (acc ++ p.data)
      (T ++ (p.calls ++ [.frameRecvChunk p.data, .frameRecvEnd]))) :
    PassLeaves t u (hs ++ [p.f.header])
      (T ++ (p.calls ++ [.frameRecvChunk p.data, .frameRecvEnd])) := by
  rw [← List.append_assoc] at hw ⊢
  exact p.told.withheld hfull hfin hoff hw

/-- The automatic reply has left the loop. -/
theorem PieceRead.unanswered (p : PieceRead ht) {text : List Utf8.Range}
    (hfull : (acc ++ p.data).length = p.f.header.length) (hfin : p.f.header.fin = true)
    {opcode : Fin 16} {msg : List UInt8}
    (hv : (p.f.advance cfg p.data text).draft.verdict cfg p.waiting =
      .done opcode msg ⟨p.waiting, none⟩)
    {s : EventContext × Io} (hw : Works (fed t) s (p.calls ++ [.frameRecvChunk p.data, .frameRecvEnd]))
    {r : Int} (hr : recvReply opcode msg s = .leave r u) (hleave : recvPass t = .leave r u) :
    Adds cfg callbacks t (recvPass t).state new T := by
  obtain ⟨hcounts, hsmall⟩ := p.counts text hfull
  have hkeeps := recvReply_keeps opcode msg s
  rw [hr] at hkeeps
  obtain ⟨-, hcalls, hreceived⟩ := hkeeps
  have hoff : u.1.readEnabled = false := by
    rcases recvReply_cases opcode msg s with ⟨s', heq, -⟩ | ⟨r', s', heq, hoff⟩
    · rw [hr] at heq
      cases heq
    · rw [hr] at heq
      cases heq
      exact hoff
  have hlen : opcode = 9 → msg.length ≤ 125 := fun h9 =>
    Draft.verdict_fits hsmall hv (by rw [h9]; decide)
  rw [hleave]
  refine ht.adds p.delivers (hcalls.trans hw.calls) (hreceived.trans hw.received) rfl
    (p.withheld hfull hfin hoff ?_) p.front (enabled_elim hoff)
  rcases recvReply_leaves hlen hr with ⟨h8, hne, haccept⟩ | hmem
  · obtain ⟨h8', rfl⟩ := hcounts.close hsmall (h8 ▸ hv)
    obtain ⟨hop, hbody⟩ := p.close h8'
    rw [hbody] at haccept
    exact .reply s r hop hne haccept
  · refine .memory fun hok => hmem (hw.memOk ?_)
    rw [Io.MemOk, p.delivers.mem]
    exact hok

/-- The message has been answered if need be, and is delivered. -/
theorem PieceRead.delivered (p : PieceRead ht) {text : List Utf8.Range}
    (hfull : (acc ++ p.data).length = p.f.header.length) (hfin : p.f.header.fin = true)
    (hpiece : rx.piece 2 cfg p.f.header p.data =
      ⟨p.calls ++ [.frameRecvChunk p.data, .frameRecvEnd],
        (p.f.advance cfg p.data text).draft.verdict cfg p.waiting⟩)
    {opcode : Fin 16} {msg : List UInt8}
    (hv : (p.f.advance cfg p.data text).draft.verdict cfg p.waiting =
      .done opcode msg ⟨p.waiting, none⟩)
    {s s' : EventContext × Io}
    (hw : Works (fed t) s (p.calls ++ [.frameRecvChunk p.data, .frameRecvEnd]))
    (hr : recvReply opcode msg s = .again s') (heq : recvPass t = .again u)
    (hw' : Works s' u [msgCall opcode msg]) (hm : Models cfg u.1 ⟨p.waiting, none⟩) :
    Adds cfg callbacks t (recvPass t).state new T := by
  have hkeeps := recvReply_keeps opcode msg s
  rw [hr] at hkeeps
  obtain ⟨hcb, hcalls, hreceived⟩ := hkeeps
  have hsame : SameInput s s' := by
    rcases recvReply_cases opcode msg s with ⟨s', heq, hsame⟩ | ⟨r', s', heq, -⟩
    · rw [hr] at heq
      cases heq
      exact hsame
    · rw [hr] at heq
      cases heq
  have hmsg : p.f.header.Delivery [msgCall opcode msg] := by
    rw [Header.Delivery, if_pos hfin]
    exact ⟨opcode, msg, rfl⟩
  have hgroup := p.told.group hfull hmsg
  rw [List.append_assoc] at hgroup
  have hheld : Rx.held ⟨p.waiting, none⟩ ≤
      ((T ++ (p.calls ++ ([Call.frameRecvChunk p.data, .frameRecvEnd] ++
        [msgCall opcode msg]))).flatMap Call.chunk).length := by
    refine Nat.le_trans ?_ (p.held text [.frameRecvEnd, msgCall opcode msg])
    simp only [Rx.held, Option.map_none, Option.getD_none]
    omega
  have hall : u.2.calls = (fed t).2.calls ++
      (p.calls ++ ([Call.frameRecvChunk p.data, .frameRecvEnd] ++ [msgCall opcode msg])).filter
        (fed t).1.callbacks.takes := by
    rw [← List.append_assoc, List.filter_append, ← List.append_assoc, ← hw.calls, ← hw.callbacks,
      ← hcb, ← hcalls]
    exact hw'.calls
  rw [heq]
  exact ht.adds p.delivers hall (hw'.received.trans (hreceived.trans hw.received)) rfl
    (.between hgroup) p.front fun _ =>
      p.nextFrame hfull (Or.inr ⟨opcode, msg, by rw [hpiece, hv]⟩)
        ((hw.sameInput.trans hsame).trans hw'.sameInput) hm
        (hw'.callbacks.trans (hcb.trans hw.callbacks)) hheld hgroup

/-- **The last frame of a message has come to its end**, with the verdict on the
message. -/
theorem PieceRead.message (p : PieceRead ht) {text : List Utf8.Range}
    (hfull : (acc ++ p.data).length = p.f.header.length) (hfin : p.f.header.fin = true)
    (hpiece : rx.piece 2 cfg p.f.header p.data =
      ⟨p.calls ++ [.frameRecvChunk p.data, .frameRecvEnd],
        (p.f.advance cfg p.data text).draft.verdict cfg p.waiting⟩)
    (hout : Outcome cfg (fed t) (recvPass t) (rx.piece 2 cfg p.f.header p.data)) :
    Adds cfg callbacks t (recvPass t).state new T := by
  obtain ⟨hcounts, hsmall⟩ := p.counts text hfull
  rw [hpiece] at hout
  cases hv : (p.f.advance cfg p.data text).draft.verdict cfg p.waiting with
  | more rx => exact absurd hv Draft.verdict_more
  | overflow =>
    rw [hv] at hout
    obtain ⟨s', heq, hw⟩ := hout
    have hlong : (p.f.advance cfg p.data text).draft.body.length ≤
        ((T ++ (p.calls ++ [Call.frameRecvChunk p.data, .frameRecvEnd])).flatMap Call.chunk).length := by
      refine Nat.le_trans ?_ (p.held text [.frameRecvEnd])
      simp only [Rx.held, Option.map_some, Option.getD_some]
      omega
    rw [heq]
    exact ht.adds p.delivers hw.calls hw.received rfl
      (p.withheld hfull hfin rfl (.length ((hcounts.overflow hv).trans hlong))) p.front
      (enabled_elim rfl)
  | reject code =>
    rw [hv] at hout
    obtain ⟨s', heq, hw⟩ := hout
    obtain ⟨h8, h2, hbad⟩ := hcounts.rejects hsmall hv
    obtain ⟨hop, hbody⟩ := p.close h8
    rw [hbody] at h2 hbad
    exact p.rejects heq hw fun u hoff => p.withheld hfull hfin hoff (.status hop h2 hbad)
  | done opcode msg rx' =>
    obtain ⟨-, rfl⟩ := Draft.verdict_done hv
    rw [hv] at hout
    obtain ⟨s, hw, hreply⟩ := hout
    cases hr : recvReply opcode msg s with
    | leave r u =>
      rw [hr] at hreply
      exact p.unanswered hfull hfin hv hw hr hreply
    | again s' =>
      rw [hr] at hreply
      obtain ⟨u, heq, hw', hm⟩ := hreply
      exact p.delivered hfull hfin hpiece hv hw hr heq hw' hm

/-- **What a piece comes to.** -/
theorem PieceRead.reacts (p : PieceRead ht) : Adds cfg callbacks t (recvPass t).state new T := by
  have hpiece : rx.piece 2 cfg p.f.header p.data =
      ⟨p.calls ++ (p.f.piece 2 cfg p.waiting p.data).calls,
        (p.f.piece 2 cfg p.waiting p.data).verdict⟩ := Rx.piece_ok p.enters 2 p.data
  rcases p.takes.outcome with hmem | hout
  · exact p.noMemory hmem
  · have hout : Outcome cfg (fed t) (recvPass t) (rx.piece 2 cfg p.f.header p.data) := hout
    rcases p.f.piece_cases 2 cfg p.waiting p.data with ⟨-, hP⟩ | ⟨text, -, ⟨hend, hP⟩ | ⟨hnot, hP⟩⟩ <;>
      rw [hP] at hpiece
    · -- the text is bad
      rw [hpiece] at hout
      obtain ⟨s', heq, hw⟩ := hout
      refine p.rejects heq hw fun u hoff => ?_
      have hle := p.fits
      rw [List.length_append] at hle
      rw [List.append_nil]
      exact p.told.within (by omega) (enabled_elim hoff)
    · -- the frame is complete
      have hfull : (acc ++ p.data).length = p.f.header.length := p.length_told.trans hend
      rcases (p.f.advance cfg p.data text).finish_cases cfg p.waiting with
          hF | ⟨hfin, hF⟩ | ⟨hfin, hF⟩ <;> rw [hF] at hpiece
      · -- the text is not complete
        rw [hpiece] at hout
        obtain ⟨s', heq, hw⟩ := hout
        exact p.rejects heq hw fun u hoff =>
          (p.told_advance text).within p.fits (enabled_elim hoff)
      · exact p.message hfull hfin hpiece hout
      · exact p.frameEnds hfull hfin hpiece hout
    · exact p.goesOn hnot hpiece hout

/-- **What a piece of the frame `f` comes to.** -/
theorem Tells.reacts (ht : Tells cfg callbacks t rx d look hs acc new T) {bs hdr raw look' : List UInt8}
    {h : Header} {off : Nat} {d' : Dec} (hdel : Delivers t.2 bs (fed t).2)
    (hp : TakesPiece cfg t (fed t) rx d (look ++ bs) h off hdr raw d' look') {calls : List Call}
    {f : Progress} {waiting : Option Draft} (he : rx.enter cfg h = .ok (calls, f, waiting)) :
    Adds cfg callbacks t (recvPass t).state new T := by
  obtain ⟨rfl, -⟩ := ht.listens.place.enter hp.enters he
  have p : PieceRead ht := ⟨bs, hdr, raw, look', off, d', f, waiting, calls, hdel, hp, he⟩
  exact p.reacts

/-- **What a pass adds.** -/
theorem Tells.pass (ht : Tells cfg callbacks t rx d look hs acc new T)
    (hon : t.1.readEnabled = true) : Adds cfg callbacks t (recvPass t).state new T := by
  obtain ⟨bs, hdel, -, -, ⟨d', look', -, hpass, -, -, hl', hdr, hlook, hwhere⟩ | ⟨-, hpass⟩ |
    ⟨h, off, hdr, raw, d', look', -, -, hp⟩⟩ := recvPass_steps ht.listens hon
  · obtain ⟨r, s', heq, hsp, hstate⟩ := recvFrameError_state .wantRead (fed t).1 (fed t).2
    rw [hpass, heq]
    refine ht.stays hdel hsp.calls hsp.received rfl fun he => ?_
    rcases hstate with rfl | hoff
    · exact ⟨rx, d', look', hs, acc, ht.waits hl' hlook hwhere⟩
    · exact absurd he (by simp [hoff])
  · obtain ⟨r, s', heq, hsp, -⟩ := recvFrameError_state .proto (fed t).1 (fed t).2
    have hoff : s'.1.readEnabled = false := by
      have hshut := (eventQueueCloseWrapper_spares (fed t).1 0 [] (fed t).2).2
      unfold recvFrameError at heq
      rw [if_pos (Or.inl (by decide))] at heq
      dsimp only at heq
      generalize eventQueueCloseWrapper _ _ _ _ = answer at heq hshut
      obtain ⟨r', c', io'⟩ := answer
      by_cases hr : r' ≠ 0
      · rw [if_pos hr] at heq
        cases heq
        exact hshut
      · rw [if_neg hr] at heq
        cases heq
        exact hshut
    rw [hpass, heq]
    exact ht.stays hdel hsp.calls hsp.received rfl fun he => absurd he (by simp [hoff])
  · cases he : rx.enter cfg h with
    | error code =>
      have hout := hp.outcome
      rw [Rx.piece_error he] at hout
      rcases hout with ⟨-, r, s', heq, -, hoff, made, hmade, hcalls, hreceived⟩ | ⟨s', heq, hw⟩
      · rw [heq]
        rw [List.prefix_nil.1 hmade, List.filter_nil, List.append_nil] at hcalls
        exact ht.stays hdel hcalls hreceived rfl fun he => absurd he (by simp [hoff])
      · obtain ⟨r, s'', hleave, hsp, hoff⟩ := failWith_leave code s'
        have hcalls := hw.calls
        rw [List.filter_nil, List.append_nil] at hcalls
        rw [heq, hleave]
        exact ht.stays hdel (hsp.calls.trans hcalls) (hsp.received.trans hw.received) rfl
          fun he => absurd he (by simp [hoff])
    | ok x =>
      obtain ⟨calls, f, waiting⟩ := x
      exact ht.reacts hdel hp he

/-! ## Runs -/

/-- Nothing that leaves the receiver alone tells anything. -/
theorem Tells.spares (ht : Tells cfg callbacks t rx d look hs acc new T) (hsp : Spares t u) :
    Tells cfg callbacks u rx d look hs acc new T := by
  have hc := hsp.context
  simp only [EventContext.rxPart, Prod.mk.injEq] at hc
  exact ⟨ht.listens.spares hsp, ht.sound, hc.2.2.2.2.1.trans ht.callbacks, ht.octets, ht.holds,
    ht.held, ht.told⟩

/-- **The invariant of a run** that begins with `io`: the calls are in order, and as
long as reading goes on they tell what has been received. -/
def Ordered (cfg : RxConfig) (callbacks : EventCallbacks) (io : Io) (t : EventContext × Io) : Prop :=
  ∃ new T hs, t.2.calls = io.calls ++ T.filter callbacks.takes ∧
    t.2.received = io.received ++ new ∧ (∃ rest, Groups hs (T ++ rest)) ∧ hs <+: headersOf new ∧
    (t.1.readEnabled = true → ∃ rx d look hs acc, Tells cfg callbacks t rx d look hs acc new T)

theorem Ordered.spares {io : Io} (ht : Ordered cfg callbacks io t) (hsp : Spares t u) :
    Ordered cfg callbacks io u := by
  obtain ⟨new, T, hs, hcalls, hreceived, hgroups, hpre, hon⟩ := ht
  refine ⟨new, T, hs, hsp.calls.trans hcalls, hsp.received.trans hreceived, hgroups, hpre,
    fun he => ?_⟩
  obtain ⟨rx, d, look, hs, acc, htells⟩ := hon (hsp.enabled he)
  exact ⟨rx, d, look, hs, acc, htells.spares hsp⟩

theorem Ordered.pass {io : Io} (ht : Ordered cfg callbacks io t) :
    (recvPass t).All (Ordered cfg callbacks io) := by
  rw [Step.all_iff]
  cases hon : t.1.readEnabled with
  | false =>
    rw [recvPass, if_neg (by simp [hon])]
    exact ht
  | true =>
    obtain ⟨new, T, hs, hcalls, hreceived, -, -, htells⟩ := ht
    obtain ⟨rx, d, look, hs, acc, htells⟩ := htells hon
    obtain ⟨more, L, hs', hcalls', hreceived', hleaves, hpre, hnext⟩ := htells.pass hon
    refine ⟨new ++ more, T ++ L, hs', ?_, ?_, hleaves.inOrder, hpre, hnext⟩
    · rw [hcalls', hcalls, List.filter_append, List.append_assoc]
    · rw [hreceived', hreceived, List.append_assoc]

theorem Ordered.runOps {io : Io} (ht : Ordered cfg callbacks io t) (ops : List Op) :
    Ordered cfg callbacks io (runOps t ops) := by
  have hstep : ∀ (s : EventContext × Io) (op : Op), True → Ordered cfg callbacks io s →
      Ordered cfg callbacks io (step s op).2 := by
    intro s op _ hs
    cases op with
    | call a => exact hs.spares (appCall_spares s.1 s.2 a)
    | recv =>
      show Ordered cfg callbacks io (eventRecv s.1 s.2).2
      unfold eventRecv
      cases hrun : Loop.run recvPass (recvFuel s.1 s.2) (s.1, s.2) with
      | none => exact hs
      | some x => exact Loop.run_inv (fun _ ha => ha.pass) hs hrun
  exact runOps_inv hstep (fun _ _ => trivial) ht

end

theorem configured_ordered (server : Bool) (callbacks : EventCallbacks) (noBuffering : Bool)
    (maxRecvMsgLength : Nat) (io : Io) :
    Ordered (.of server callbacks noBuffering maxRecvMsgLength) callbacks io
      (configured server callbacks noBuffering maxRecvMsgLength, io) := by
  refine ⟨[], [], [], by simp, by simp, ⟨[], .nil⟩, List.nil_prefix, fun _ => ?_⟩
  exact ⟨.fresh, .head, [], [], [],
    configured_listens server callbacks noBuffering maxRecvMsgLength io, .fresh _, rfl,
    ⟨[], fun _ h => (by cases h), rfl, rfl⟩, rfl, Nat.le_refl _, .nil⟩

/-- **The invariant holds in every run**, from pass to pass. -/
theorem ordered_reaches (server : Bool) (callbacks : EventCallbacks) (noBuffering : Bool)
    (maxRecvMsgLength : Nat) (io : Io) (ops : List Op) {t : EventContext × Io}
    (ht : Loop.Reaches recvPass
      (runOps (configured server callbacks noBuffering maxRecvMsgLength, io) ops) t) :
    Ordered (.of server callbacks noBuffering maxRecvMsgLength) callbacks io t := by
  refine ht.inv (fun a b ha hab => ?_)
    ((configured_ordered server callbacks noBuffering maxRecvMsgLength io).runOps ops)
  have hpass := ha.pass
  rwa [hab] at hpass

/-- **The receive callbacks have followed their protocol** up to the state `t` of a run
that began with `io`, and follow it in the next pass.  If all callbacks were set, their
calls would be `T`, the front of a sequence of groups, one for each of the frames received.
A pass leaves them between two frames, inside one, or behind one whose message is
withheld.  Behind a rejection, as whenever reading is over, nothing is called. -/
def InOrder (callbacks : EventCallbacks) (io : Io) (t : EventContext × Io) : Prop :=
  ∃ new T hs, t.2.calls = io.calls ++ T.filter callbacks.takes ∧
    t.2.received = io.received ++ new ∧ (∃ rest, Groups hs (T ++ rest)) ∧ hs <+: headersOf new ∧
    (t.1.readEnabled = true → ∃ more L hs',
      (recvPass t).state.2.calls = t.2.calls ++ L.filter callbacks.takes ∧
      (recvPass t).state.2.received = t.2.received ++ more ∧
      PassLeaves t (recvPass t).state hs' (T ++ L) ∧ hs' <+: headersOf (new ++ more)) ∧
    (∀ code (s : EventContext × Io), recvPass t = failWith code s.1 s.2 →
      ∀ ops, (runOps (recvPass t).state ops).2.calls = s.2.calls) ∧
    (t.1.readEnabled = false → ∀ ops, (runOps t ops).2.calls = t.2.calls)

/-- **The receive callbacks follow their protocol**, in every run and for every
stream, from pass to pass. -/
theorem callbacks_in_order (server : Bool) (callbacks : EventCallbacks) (noBuffering : Bool)
    (maxRecvMsgLength : Nat) (io : Io) (ops : List Op) (t : EventContext × Io)
    (ht : Loop.Reaches recvPass
      (runOps (configured server callbacks noBuffering maxRecvMsgLength, io) ops) t) :
    InOrder callbacks io t := by
  have hordered := ordered_reaches server callbacks noBuffering maxRecvMsgLength io ops ht
  obtain ⟨new, T, hs, hcalls, hreceived, hgroups, hpre, htells⟩ := hordered
  refine ⟨new, T, hs, hcalls, hreceived, hgroups, hpre, fun hon => ?_, fun code s hfail ops' => ?_,
    fun hoff ops' => (spares_runOps hoff ops').calls⟩
  · obtain ⟨rx, d, look, hs, acc, htells⟩ := htells hon
    obtain ⟨more, L, hs', hcalls', hreceived', hleaves, hpre', -⟩ := htells.pass hon
    exact ⟨more, L, hs', hcalls', hreceived', hleaves, hpre'⟩
  · obtain ⟨r, u, hleave, hsp, hoff⟩ := failWith_leave code s
    rw [hfail, hleave]
    exact (spares_runOps hoff ops').calls.trans hsp.calls

/-- A Ping of one octet that comes in two parts. -/
def splitPing : Io := { recvs := [.data [0x89, 0x81, 1], .data [2, 3, 4, 0x60]] }

/-- A Ping is announced, handed on, closed and delivered. -/
theorem callbacks_in_order_splitPing :
    InOrder ⟨true, true, true, true⟩ splitPing
      (runOps (configured true ⟨true, true, true, true⟩ false 100, splitPing) [.recv]) ∧
    (runOps (configured true ⟨true, true, true, true⟩ false 100, splitPing) [.recv]).2.calls =
      [.frameRecvStart 1 0 9 1, .frameRecvChunk [0x61], .frameRecvEnd, .msgRecv 0 9 [0x61] 0] :=
  ⟨callbacks_in_order true ⟨true, true, true, true⟩ false 100 splitPing [.recv] _ .refl,
    by decide +kernel⟩

end Wslay
