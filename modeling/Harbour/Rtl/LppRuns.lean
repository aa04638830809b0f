import Harbour.Rtl.LppStream

/-!
What is received on a connection, whatever the stream does with the bytes and whichever operations
time out.
-/

namespace Harbour.Rtl.Lpp

open Library.Bytes Library.Transitions List Option

variable {sender receiver : Platform} {nLimit : Nat}

/-- The messages that the protocol carries to a receiver with this limit. -/
def Sendable (receiver : Platform) (nLimit : Nat) (data : Bytes) : Prop :=
  WithinLimit nLimit data ∧ Carried receiver data

/-- The bytes that the sender holds are those that follow what is on the way. -/
structure SendSound (pSocket : HbLpp) : Prop where
  position : ∀ buffer, pSocket.pSendBuffer = some buffer →
    pSocket.nSendLen = buffer.length ∧ pSocket.nSendPos < buffer.length

def Event.isRecv : Event → Bool
  | .callRecv => true
  | .socketRecv _ => true
  | .recvTimeout => true
  | _ => false

variable {lSend n : Nat} {after : HbLpp × Option Result} {event : Event} {events : List Event}
  {expired : Bool}

namespace HbLpp

variable {pSocket : HbLpp}

theorem unsent_none (h : pSocket.pSendBuffer = none) : pSocket.unsent = [] := by
  unfold unsent
  rw [h]
  exact drop_nil

theorem sendStart_sound (h : SendSound pSocket) (data : Bytes) :
    SendSound (pSocket.sendStart data) := by
  unfold sendStart
  split
  · refine ⟨?_⟩
    rintro buffer ⟨⟩
    rw [frame_length]
    exact ⟨Nat.add_comm .., Nat.lt_of_lt_of_le (Nat.succ_pos 3) (Nat.le_add_right ..)⟩
  · exact h

theorem sendStart_buffer (data : Bytes) : (pSocket.sendStart data).pSendBuffer ≠ none := by
  unfold sendStart
  split
  · exact nofun
  · rename_i hsome
    rw [hsome]
    exact nofun

theorem sendStart_some (h : pSocket.pSendBuffer ≠ none) (data : Bytes) :
    pSocket.sendStart data = pSocket := by
  unfold sendStart
  split
  · rename_i hnone
    exact absurd hnone h
  · rfl

theorem sendStart_unsent (h : pSocket.pSendBuffer = none) (data : Bytes) :
    (pSocket.sendStart data).unsent = frame data := by
  unfold sendStart
  rw [h]
  exact drop_zero

theorem sendAfter_spec (h : SendSound pSocket) {buffer : Bytes}
    (hbuffer : pSocket.pSendBuffer = some buffer) (hask : lSend ≤ pSocket.sendAsk sender)
    (expired : Bool) :
    SendSound (pSocket.sendAfter lSend expired).1 ∧
      (pSocket.sendAfter lSend expired).1.unsent = pSocket.unsent.drop lSend ∧
      ((pSocket.sendAfter lSend expired).2 = none →
        (pSocket.sendAfter lSend expired).1.pSendBuffer ≠ none) := by
  obtain ⟨hlen, hlt⟩ := h.position buffer hbuffer
  have hle : lSend ≤ pSocket.nSendLen - pSocket.nSendPos := by
    refine hask.trans ?_
    unfold sendAsk
    split
    · exact Nat.le_refl _
    · omega
  have hdrop : pSocket.unsent.drop lSend = buffer.drop (pSocket.nSendPos + lSend) := by
    unfold unsent
    rw [hbuffer, getD_some, drop_drop]
  unfold sendAfter
  simp only
  split
  · rename_i hend
    refine ⟨⟨nofun⟩, ?_, nofun⟩
    rw [hdrop, unsent_none rfl, drop_eq_nil_of_le (by omega)]
  · rename_i hmore
    have hposition : ∀ block, pSocket.pSendBuffer = some block → pSocket.nSendLen = block.length ∧
        pSocket.nSendPos + lSend < block.length := by
      intro block hblock
      rw [hbuffer] at hblock
      injection hblock with hblock
      rw [← hblock]
      exact ⟨hlen, by omega⟩
    have hunsent : ∀ iError, HbLpp.unsent { pSocket with
        nSendPos := pSocket.nSendPos + lSend, iError := iError } = pSocket.unsent.drop lSend := by
      intro iError
      rw [hdrop]
      rw [hbuffer]
      rfl
    split
    · exact ⟨⟨hposition⟩, hunsent _, nofun⟩
    · refine ⟨⟨hposition⟩, hunsent _, fun _ => ?_⟩
      rw [hbuffer]
      exact nofun

end HbLpp

namespace Connection

variable {s s' : Connection}

structure Inv (receiver : Platform) (nLimit : Nat) (s : Connection) : Prop where
  sound : s.receiver.Sound receiver nLimit
  buffer : s.receiving = true → s.receiver.pRecvBuffer ≠ none
  sender : SendSound s.sender
  sending : s.sending = true → s.sender.pSendBuffer ≠ none
  allowed : ∀ data ∈ s.sent, Sendable receiver nLimit data
  stream : ∃ rest, s.sent = s.received ++ rest ∧
    s.receiver.taken ++ s.arrived ++ s.inFlight ++ s.sender.unsent = rest.flatMap frame
  count : s.nArrived =
    (s.received.flatMap frame).length + s.receiver.taken.length + s.arrived.length

theorem inv_create : Inv receiver nLimit (create nLimit) where
  sound := HbLpp.sound_create
  buffer := nofun
  sender := ⟨nofun⟩
  sending := nofun
  allowed := nofun
  stream := ⟨[], rfl, rfl⟩
  count := rfl

section

variable (h : Inv receiver nLimit s)

include h

theorem Inv.callSend {data : Bytes} (hdata : Sendable receiver nLimit data)
    (hstep : s.callSend data = some s') : Inv receiver nLimit s' := by
  unfold Connection.callSend at hstep
  split at hstep
  · exact nomatch hstep
  · split at hstep
    · rename_i hnone
      cases hstep
      obtain ⟨rest, hsent, hstream⟩ := h.stream
      refine ⟨h.sound, h.buffer, HbLpp.sendStart_sound h.sender data,
        fun _ => HbLpp.sendStart_buffer data, ?_, ⟨rest ++ [data], ?_, ?_⟩, h.count⟩
      · intro other hother
        rcases mem_append.mp hother with hold | hnew
        · exact h.allowed other hold
        · rw [mem_singleton.mp hnew]
          exact hdata
      · show s.sent ++ [data] = s.received ++ (rest ++ [data])
        rw [hsent, append_assoc]
      · show s.receiver.taken ++ s.arrived ++ s.inFlight ++ (s.sender.sendStart data).unsent = _
        rw [HbLpp.unsent_none hnone, append_nil] at hstream
        rw [HbLpp.sendStart_unsent hnone, hstream, flatMap_append, flatMap_singleton]
    · rename_i hsome
      split at hstep
      · cases hstep
        rw [HbLpp.sendStart_some hsome]
        exact ⟨h.sound, h.buffer, h.sender, fun _ => hsome, h.allowed, h.stream, h.count⟩
      · exact nomatch hstep

theorem Inv.socketSend (hstep : s.socketSend sender lSend expired = some s') :
    Inv receiver nLimit s' := by
  obtain ⟨⟨hsending, -, hask⟩, hstep⟩ := ite_none_right_eq_some.mp hstep
  cases hstep
  obtain ⟨buffer, hbuffer⟩ := ne_none_iff_exists'.mp (h.sending hsending)
  obtain ⟨hsound, hunsent, hsome⟩ := HbLpp.sendAfter_spec h.sender hbuffer hask expired
  obtain ⟨rest, hsent, hstream⟩ := h.stream
  refine ⟨h.sound, h.buffer, hsound, fun hgoes => hsome (isNone_iff_eq_none.mp hgoes),
    h.allowed, ⟨rest, hsent, ?_⟩, h.count⟩
  rw [← hstream]
  rw [hunsent, ← append_assoc, append_assoc _ (s.sender.unsent.take lSend),
    take_append_drop]

theorem Inv.sendTimeout (hstep : s.sendTimeout = some s') : Inv receiver nLimit s' := by
  obtain ⟨-, hstep⟩ := ite_none_right_eq_some.mp hstep
  cases hstep
  exact ⟨h.sound, h.buffer, ⟨h.sender.position⟩, nofun, h.allowed, h.stream, h.count⟩

theorem Inv.transfer (hstep : s.transfer n = some s') : Inv receiver nLimit s' := by
  obtain ⟨hle, hstep⟩ := ite_none_right_eq_some.mp hstep
  cases hstep
  obtain ⟨rest, hsent, hstream⟩ := h.stream
  refine ⟨h.sound, h.buffer, h.sender, h.sending, h.allowed, ⟨rest, hsent, ?_⟩, ?_⟩
  · rw [← hstream]
    rw [← append_assoc, append_assoc _ (s.inFlight.take n), take_append_drop]
  · show s.nArrived + n = _ + (s.arrived ++ s.inFlight.take n).length
    rw [h.count, length_append, length_take, Nat.min_eq_left hle, Nat.add_assoc]
    rfl

theorem Inv.callRecv (hstep : s.callRecv = some s') : Inv receiver nLimit s' := by
  obtain ⟨-, hstep⟩ := ite_none_left_eq_some.mp hstep
  cases hstep
  refine ⟨h.sound.recvStart, fun _ => HbLpp.recvStart_buffer, h.sender, h.sending, h.allowed, ?_,
    ?_⟩
  · rw [HbLpp.recvStart_taken]
    exact h.stream
  · rw [HbLpp.recvStart_taken]
    exact h.count

end

theorem received_recvEnd (after : HbLpp × Option Result) :
    (s.recvEnd after).received = s.received ++ after.2.toList.filterMap Result.data :=
  filterMap_append

theorem received_nothing (h : ∀ result, after.2 = some result → result.data = none) :
    (s.recvEnd after).received = s.received := by
  rw [received_recvEnd]
  cases hresult : after.2 with
  | none => exact append_nil _
  | some result =>
    rw [toList_some, filterMap_cons_none (h result hresult)]
    exact append_nil _

section

variable (h : Inv receiver nLimit s)

include h

theorem Inv.take (hreceiving : s.receiving = true)
    (harrived : s.arrived ≠ [] ∨ s.receiver.recvAsk receiver = 0) :
    s.arrived.take (s.receiver.recvAsk receiver) ≠ [] ∧
      (s.arrived.take (s.receiver.recvAsk receiver)).length ≤ s.receiver.recvAsk receiver := by
  have hpos := (h.sound.recvAsk_eq (h.buffer hreceiving)).1
  refine ⟨fun hnil => ?_, length_take_le _ _⟩
  rcases take_eq_nil_iff.mp hnil with hzero | hnil
  · exact absurd hzero (Nat.ne_of_gt hpos)
  · rcases harrived with hne | hzero
    · exact hne hnil
    · exact absurd hzero (Nat.ne_of_gt hpos)

theorem Inv.going (hgoing : s.receiver.Going receiver nLimit (s.arrived.take n) after) :
    Inv receiver nLimit ({ s with arrived := s.arrived.drop n }.recvEnd after) := by
  obtain ⟨rest, hsent, hstream⟩ := h.stream
  have hreceived := received_nothing (s := { s with arrived := s.arrived.drop n }) hgoing.nothing
  refine ⟨hgoing.sound, fun _ => hgoing.buffer, h.sender, h.sending, h.allowed, ⟨rest, ?_, ?_⟩, ?_⟩
  · rw [hreceived]
    exact hsent
  · rw [← hstream]
    show after.1.taken ++ s.arrived.drop n ++ _ ++ _ = _
    rw [hgoing.taken, append_assoc _ (s.arrived.take n), take_append_drop]
    rfl
  · rw [hreceived]
    show s.nArrived = _ + after.1.taken.length + (s.arrived.drop n).length
    have hsplit : (s.arrived.take n).length + (s.arrived.drop n).length = s.arrived.length := by
      rw [← length_append, take_append_drop]
    rw [hgoing.taken, length_append, h.count, ← hsplit]
    simp only [received]
    omega

theorem Inv.delivered {data : Bytes} {rest : List Bytes}
    (hsent : s.sent = s.received ++ data :: rest)
    (hstream : s.receiver.taken ++ s.arrived ++ s.inFlight ++ s.sender.unsent =
      (data :: rest).flatMap frame)
    (hdelivered : s.receiver.Delivered receiver nLimit (s.arrived.take n) data after) :
    Inv receiver nLimit ({ s with arrived := s.arrived.drop n }.recvEnd after) := by
  have hreceived : ({ s with arrived := s.arrived.drop n }.recvEnd after).received =
      s.received ++ [data] := by
    rw [received_recvEnd, hdelivered.result]
    rfl
  have htaken : after.1.taken = [] := by
    unfold HbLpp.taken
    rw [hdelivered.buffer]
  have hsplit : s.receiver.taken ++ s.arrived = frame data ++ s.arrived.drop n := by
    rw [← hdelivered.whole, append_assoc, take_append_drop]
  refine ⟨hdelivered.sound, fun hgoes => ?_, h.sender, h.sending, h.allowed, ⟨rest, ?_, ?_⟩, ?_⟩
  · change after.2.isNone = true at hgoes
    rw [hdelivered.result] at hgoes
    exact nomatch hgoes
  · rw [hreceived, append_assoc]
    exact hsent
  · rw [hsplit, append_assoc, append_assoc, flatMap_cons] at hstream
    show after.1.taken ++ s.arrived.drop n ++ s.inFlight ++ s.sender.unsent = _
    rw [htaken, nil_append, append_assoc]
    exact append_cancel_left hstream
  · have hlength := congrArg length hsplit
    rw [length_append, length_append] at hlength
    rw [hreceived, flatMap_append, flatMap_singleton, length_append]
    show s.nArrived = _ + after.1.taken.length + (s.arrived.drop n).length
    rw [htaken, h.count, length_nil]
    omega

theorem Inv.socketRecv (hstep : s.socketRecv receiver expired = some s') :
    Inv receiver nLimit s' ∧
      ((∃ result, s'.results = s.results ++ result.toList ∧ s'.receiving = result.isNone ∧
        (∀ r, result = some r → r.data = none) ∧
        (s.receiver.recvAsk receiver ≤ s.arrived.length →
          s.receiver.fRecvHasSize = false ∧ result = none ∧ s'.receiver.fRecvHasSize = true)) ∨
      ∃ data rest, s.sent = s.received ++ data :: rest ∧
        s'.results = s.results ++ [⟨some data, 0⟩]) := by
  obtain ⟨⟨hreceiving, harrived⟩, hstep⟩ := ite_none_right_eq_some.mp hstep
  cases hstep
  obtain ⟨hne, hask⟩ := h.take hreceiving harrived
  obtain ⟨rest, hsent, hstream⟩ := h.stream
  have hbytes : s.receiver.taken ++ s.arrived.take (s.receiver.recvAsk receiver) ++
      (s.arrived.drop (s.receiver.recvAsk receiver) ++ s.inFlight ++ s.sender.unsent) =
        rest.flatMap frame := by
    rw [← hstream, append_assoc, ← append_assoc _ _ s.sender.unsent,
      ← append_assoc _ _ s.inFlight, take_append_drop]
    simp only [append_assoc]
  have hrest : ∀ data ∈ rest, Sendable receiver nLimit data := fun data hdata =>
    h.allowed data (hsent ▸ mem_append_right _ hdata)
  rcases h.sound.recvAfter (h.buffer hreceiving) hne hask hbytes hrest expired with
    ⟨hgoing, hall⟩ | ⟨data, more, rfl, hdelivered⟩
  · refine ⟨h.going hgoing, .inl ⟨_, rfl, rfl, hgoing.nothing, fun hle => hall ?_⟩⟩
    rw [length_take]
    exact Nat.min_eq_left hle
  · refine ⟨h.delivered hsent hstream hdelivered, .inr ⟨data, more, hsent, ?_⟩⟩
    show s.results ++ (s.receiver.recvAfter receiver _ expired).2.toList = _
    rw [hdelivered.result]
    rfl

theorem Inv.recvTimeout (hstep : s.recvTimeout = some s') : Inv receiver nLimit s' := by
  obtain ⟨-, hstep⟩ := ite_none_right_eq_some.mp hstep
  cases hstep
  have hreceived : (s.recvEnd (s.receiver.fail errTimeout)).received = s.received := by
    refine received_nothing ?_
    rintro result ⟨⟩
    rfl
  refine ⟨⟨h.sound.limit, h.sound.written, h.sound.size, h.sound.data⟩, nofun, h.sender, h.sending,
    h.allowed, ?_, ?_⟩
  · rw [hreceived]
    exact h.stream
  · rw [hreceived]
    exact h.count

theorem Inv.next (hallowed : ∀ data, event = .callSend data → Sendable receiver nLimit data)
    (hstep : s.next sender receiver event = some s') : Inv receiver nLimit s' := by
  cases event with
  | callSend data => exact Inv.callSend h (hallowed data rfl) hstep
  | socketSend lSend expired => exact Inv.socketSend h hstep
  | sendTimeout => exact Inv.sendTimeout h hstep
  | transfer n => exact Inv.transfer h hstep
  | callRecv => exact Inv.callRecv h hstep
  | socketRecv expired => exact (Inv.socketRecv h hstep).1
  | recvTimeout => exact Inv.recvTimeout h hstep

end

theorem inv_of_reachable
    (h : (connections sender receiver nLimit (Sendable receiver nLimit)).Reachable s) :
    Inv receiver nLimit s := by
  refine h.invariant ?_ ?_
  · rintro s rfl
    exact inv_create
  · rintro s s' hs ⟨event, hallowed, hstep⟩
    exact Inv.next hs hallowed hstep

/-- How many operations of the receiver are left at most, until it returns a message that has
arrived. -/
def owed (s : Connection) : Nat :=
  if s.receiving then (if s.receiver.fRecvHasSize then 1 else 2) else 3

structure Awaits (receiver : Platform) (nLimit : Nat) (data : Bytes) (results : List Result)
    (s : Connection) : Prop where
  inv : Inv receiver nLimit s
  results : s.results = results
  next : s.received ++ [data] <+: s.sent
  arrived : ((s.received ++ [data]).flatMap frame).length ≤ s.nArrived

variable {data : Bytes} {results : List Result}

theorem Awaits.ask (h : Awaits receiver nLimit data results s) (hreceiving : s.receiving = true) :
    0 < s.receiver.recvAsk receiver ∧ s.receiver.recvAsk receiver ≤ s.arrived.length := by
  have hbuffer := h.inv.buffer hreceiving
  obtain ⟨hpos, hask⟩ := h.inv.sound.recvAsk_eq hbuffer
  refine ⟨hpos, ?_⟩
  have hcount := h.arrived
  rw [h.inv.count, flatMap_append, flatMap_singleton, length_append,
    frame_length] at hcount
  obtain ⟨buffer, hsome⟩ := ne_none_iff_exists'.mp hbuffer
  have hlength := h.inv.sound.take_length hsome
  rcases Bool.eq_false_or_eq_true s.receiver.fRecvHasSize with hsize | hsize
  · obtain ⟨rest, hsent, hstream⟩ := h.inv.stream
    obtain ⟨later, hlater⟩ := h.next
    have hrest : rest = data :: later := by
      rw [hsent, append_assoc] at hlater
      exact (append_cancel_left hlater).symm
    rw [append_assoc, append_assoc] at hstream
    obtain ⟨data', more, hcons, hlen, htaken, -⟩ := h.inv.sound.size_eq hsome hsize hstream
      fun other hother => (h.inv.allowed other (hsent ▸ mem_append_right _ hother)).2
    rw [hrest] at hcons
    injection hcons with hdata
    rw [htaken, length_append, putLeUint32_length, hlength] at hcount
    rw [hask, if_pos hsize, hlen, ← hdata]
    omega
  · have htaken : s.receiver.taken = buffer.take s.receiver.nRecvLen := by
      simp [HbLpp.taken, hsome, hsize]
    rw [htaken, hlength] at hcount
    rw [hask, if_neg (Bool.eq_false_iff.mp hsize)]
    omega

theorem Awaits.next_recv (h : Awaits receiver nLimit data results s)
    (hstep : s.socketRecv receiver expired = some s') :
    s'.results = results ++ [⟨some data, 0⟩] ∨
      Awaits receiver nLimit data results s' ∧ owed s' + 1 ≤ owed s := by
  have hreceiving := (ite_none_right_eq_some.mp hstep).1.1
  have hsame : s'.sent = s.sent ∧ s'.nArrived = s.nArrived := by
    obtain ⟨-, hstep⟩ := ite_none_right_eq_some.mp hstep
    cases hstep
    exact ⟨rfl, rfl⟩
  obtain ⟨hinv, ⟨result, hresults, hgoes, -, hall⟩ | ⟨data', rest, hsent, hresults⟩⟩ :=
    Inv.socketRecv h.inv hstep
  · obtain ⟨hsize, rfl, hsize'⟩ := hall (h.ask hreceiving).2
    have hkept : s'.results = s.results := hresults.trans (append_nil _)
    have hreceived : s'.received = s.received := congrArg (filterMap Result.data) hkept
    refine .inr ⟨⟨hinv, hkept.trans h.results, ?_, ?_⟩, ?_⟩
    · rw [hreceived, hsame.1]
      exact h.next
    · rw [hreceived, hsame.2]
      exact h.arrived
    · unfold owed
      rw [hreceiving, hgoes, hsize, hsize']
      exact Nat.le_refl _
  · left
    obtain ⟨later, hlater⟩ := h.next
    rw [hsent, append_assoc] at hlater
    injection append_cancel_left hlater with hdata
    rw [hresults, h.results, hdata]

structure Apart (s s' : Connection) : Prop where
  receiver : s'.receiver = s.receiver
  receiving : s'.receiving = s.receiving
  results : s'.results = s.results
  sent : s.sent <+: s'.sent
  arrived : s.nArrived ≤ s'.nArrived

theorem apart_callSend {other : Bytes} (hstep : s.callSend other = some s') : Apart s s' := by
  unfold Connection.callSend at hstep
  split at hstep
  · exact nomatch hstep
  · split at hstep
    · cases hstep
      exact ⟨rfl, rfl, rfl, prefix_append .., Nat.le_refl _⟩
    · obtain ⟨-, hstep⟩ := ite_none_right_eq_some.mp hstep
      cases hstep
      exact ⟨rfl, rfl, rfl, prefix_refl _, Nat.le_refl _⟩

theorem apart_next (hsend : event.isRecv = false) (hstep : s.next sender receiver event = some s') :
    Apart s s' := by
  cases event with
  | callSend other => exact apart_callSend hstep
  | socketSend lSend expired | sendTimeout =>
    obtain ⟨-, hstep⟩ := ite_none_right_eq_some.mp hstep
    cases hstep
    exact ⟨rfl, rfl, rfl, prefix_refl _, Nat.le_refl _⟩
  | transfer n =>
    obtain ⟨-, hstep⟩ := ite_none_right_eq_some.mp hstep
    cases hstep
    exact ⟨rfl, rfl, rfl, prefix_refl _, Nat.le_add_right ..⟩
  | callRecv | socketRecv | recvTimeout => exact nomatch hsend

theorem Awaits.apart (h : Awaits receiver nLimit data results s) (hinv : Inv receiver nLimit s')
    (happart : Apart s s') : Awaits receiver nLimit data results s' ∧ owed s' = owed s := by
  have hreceived : s'.received = s.received :=
    congrArg (filterMap Result.data) happart.results
  refine ⟨⟨hinv, happart.results.trans h.results, ?_, ?_⟩, ?_⟩
  · rw [hreceived]
    exact h.next.trans happart.sent
  · rw [hreceived]
    exact h.arrived.trans happart.arrived
  · unfold owed
    rw [happart.receiver, happart.receiving]

theorem Awaits.next_step (h : Awaits receiver nLimit data results s)
    (hallowed : ∀ other, event = .callSend other → Sendable receiver nLimit other)
    (hstep : s.next sender receiver event = some s') :
    s'.results = results ++ [⟨some data, 0⟩] ∨
      Awaits receiver nLimit data results s' ∧ owed s' + event.isRecv.toNat ≤ owed s := by
  have hinv := Inv.next h.inv hallowed hstep
  rcases Bool.eq_false_or_eq_true event.isRecv with hrecv | hsend
  · cases event with
    | callSend | socketSend | sendTimeout | transfer => exact nomatch hrecv
    | callRecv =>
      obtain ⟨hreceiving, hstep⟩ := ite_none_left_eq_some.mp hstep
      cases hstep
      refine .inr ⟨⟨hinv, h.results, h.next, h.arrived⟩, ?_⟩
      unfold owed
      rw [if_pos rfl, if_neg hreceiving]
      split
      · exact Nat.le_succ _
      · exact Nat.le_refl _
    | socketRecv expired => exact h.next_recv hstep
    | recvTimeout =>
      obtain ⟨⟨hreceiving, hnil⟩, -⟩ := ite_none_right_eq_some.mp hstep
      have hask := h.ask hreceiving
      rw [hnil] at hask
      exact absurd hask.2 (Nat.not_le_of_gt hask.1)
  · obtain ⟨hawaits, howed⟩ := h.apart hinv (apart_next hsend hstep)
    rw [hsend, howed]
    exact .inr ⟨hawaits, Nat.le_refl _⟩

theorem next_results (hstep : s.next sender receiver event = some s') :
    s.results <+: s'.results := by
  rcases Bool.eq_false_or_eq_true event.isRecv with hrecv | hsend
  · cases event with
    | callSend | socketSend | sendTimeout | transfer => exact nomatch hrecv
    | callRecv =>
      obtain ⟨-, hstep⟩ := ite_none_left_eq_some.mp hstep
      cases hstep
      exact prefix_refl _
    | socketRecv expired | recvTimeout =>
      obtain ⟨-, hstep⟩ := ite_none_right_eq_some.mp hstep
      cases hstep
      exact prefix_append ..
  · rw [(apart_next hsend hstep).results]

theorem run_results (hrun : s.run sender receiver events = some s') :
    s.results <+: s'.results := by
  induction events generalizing s with
  | nil =>
    injection hrun with hrun
    rw [hrun]
  | cons event events ih =>
    obtain ⟨between, hstep, hrun⟩ := bind_eq_some_iff.mp hrun
    exact (next_results hstep).trans (ih hrun)

theorem Awaits.run (h : Awaits receiver nLimit data results s)
    (hallowed : ∀ other, .callSend other ∈ events → Sendable receiver nLimit other)
    (hrun : s.run sender receiver events = some s') :
    results ++ [⟨some data, 0⟩] <+: s'.results ∨
      Awaits receiver nLimit data results s' ∧
        owed s' + events.countP Event.isRecv ≤ owed s := by
  induction events generalizing s with
  | nil =>
    injection hrun with hrun
    subst hrun
    exact .inr ⟨h, Nat.le_refl _⟩
  | cons event events ih =>
    obtain ⟨between, hstep, hrun⟩ := bind_eq_some_iff.mp hrun
    rcases h.next_step (fun other hother => hallowed other (hother ▸ mem_cons_self ..))
      hstep with hgiven | ⟨hawaits, howed⟩
    · left
      rw [← hgiven]
      exact run_results hrun
    · rcases ih hawaits (fun other hother => hallowed other (mem_cons_of_mem _ hother))
        hrun with hgiven | ⟨hawaits', howed'⟩
      · exact .inl hgiven
      · refine .inr ⟨hawaits', ?_⟩
        rw [countP_cons]
        rcases Bool.eq_false_or_eq_true event.isRecv with hrecv | hsend
        · rw [hrecv] at howed ⊢
          rw [if_pos rfl]
          change owed between + 1 ≤ owed s at howed
          omega
        · rw [hsend] at howed ⊢
          rw [if_neg nofun]
          omega

theorem owed_pos : 0 < owed s := by
  unfold owed
  split
  · split
    · exact Nat.one_pos
    · exact Nat.two_pos
  · exact Nat.succ_pos 2

theorem Awaits.enabled (h : Awaits receiver nLimit data results s) :
    ∃ event : Event, event.isRecv = true ∧ (s.next sender receiver event).isSome = true := by
  rcases Bool.eq_false_or_eq_true s.receiving with hreceiving | hreceiving
  · refine ⟨.socketRecv false, rfl, ?_⟩
    obtain ⟨hpos, hle⟩ := h.ask hreceiving
    have harrived : s.arrived ≠ [] := ne_nil_of_length_pos (Nat.lt_of_lt_of_le hpos hle)
    show (s.socketRecv receiver false).isSome = true
    unfold Connection.socketRecv
    rw [if_pos ⟨hreceiving, .inl harrived⟩]
    rfl
  · refine ⟨.callRecv, rfl, ?_⟩
    show s.callRecv.isSome = true
    unfold Connection.callRecv
    rw [if_neg (Bool.eq_false_iff.mp hreceiving)]
    rfl

end Connection

theorem reachable_run {Allowed : Bytes → Prop} {s s' : Connection}
    (h : (connections sender receiver nLimit Allowed).Reachable s)
    (hallowed : ∀ data, .callSend data ∈ events → Allowed data)
    (hrun : s.run sender receiver events = some s') :
    (connections sender receiver nLimit Allowed).Reachable s' := by
  induction events generalizing s with
  | nil =>
    injection hrun with hrun
    rw [← hrun]
    exact h
  | cons event events ih =>
    obtain ⟨between, hstep, hrun⟩ := bind_eq_some_iff.mp hrun
    refine ih (h.step ⟨event, fun data hdata => ?_, hstep⟩)
      (fun data hdata => hallowed data (mem_cons_of_mem _ hdata)) hrun
    exact hallowed data (hdata ▸ mem_cons_self ..)

/-- What is received is at every moment the first of the messages sent. When all bytes of the next
message have arrived, the next call returns it: whatever the stream and the sender do, the receiver
makes at most three operations (the call, and one for the size and one for the data) and waits in
none. -/
theorem messages_delivered {s : Connection}
    (h : (connections sender receiver nLimit (Sendable receiver nLimit)).Reachable s) :
    s.received <+: s.sent ∧
      ∀ data, s.received ++ [data] <+: s.sent → s.receiving = false →
        ((s.received ++ [data]).flatMap frame).length ≤ s.nArrived →
        ∀ events s', (∀ other, .callSend other ∈ events → Sendable receiver nLimit other) →
          s.run sender receiver events = some s' →
          s.results ++ [⟨some data, 0⟩] <+: s'.results ∨
            s'.results = s.results ∧ events.countP Event.isRecv < 3 ∧
              ∃ event : Event, event.isRecv = true ∧
                (s'.next sender receiver event).isSome = true := by
  have hinv := Connection.inv_of_reachable h
  refine ⟨?_, fun data hnext hoff harrived events s' hallowed hrun => ?_⟩
  · obtain ⟨rest, hsent, -⟩ := hinv.stream
    exact ⟨rest, hsent.symm⟩
  · have hawaits : s.Awaits receiver nLimit data s.results := ⟨hinv, rfl, hnext, harrived⟩
    rcases hawaits.run hallowed hrun with hgiven | ⟨hawaits', howed⟩
    · exact .inl hgiven
    · refine .inr ⟨hawaits'.results, ?_, hawaits'.enabled⟩
      have hthree : s.owed = 3 := by
        unfold Connection.owed
        rw [hoff]
        rfl
      have hpos := Connection.owed_pos (s := s')
      omega

/-- A message of two letters, sent and received in parts with a timeout on both sides, and then
returned. -/
theorem messages_delivered_parts :
    ∃ s s', (Connection.create 1024).run Platform.lp64 Platform.lp64
        [.callSend [65, 66], .socketSend 3 true, .callSend [65, 66], .socketSend 3 false,
          .transfer 2, .callRecv, .socketRecv false, .transfer 4] = some s ∧
      s.run Platform.lp64 Platform.lp64 [.callRecv, .socketRecv false, .socketRecv true] = some s' ∧
      s.received <+: s.sent ∧ s.results ++ [⟨some [65, 66], 0⟩] <+: s'.results := by
  have hsendable : Sendable Platform.lp64 1024 [65, 66] :=
    ⟨.inr (by decide), by decide, by decide, nofun, by decide⟩
  have hstate : ((Connection.create 1024).run Platform.lp64 Platform.lp64
      [.callSend [65, 66], .socketSend 3 true, .callSend [65, 66], .socketSend 3 false,
        .transfer 2, .callRecv, .socketRecv false, .transfer 4]).map
        (fun s => (s.sent, s.received, s.receiving, s.nArrived)) =
      some ([[65, 66]], [], false, 6) := by decide +kernel
  have hcall : ((Connection.create 1024).run Platform.lp64 Platform.lp64
      [.callSend [65, 66], .socketSend 3 true, .callSend [65, 66], .socketSend 3 false,
        .transfer 2, .callRecv, .socketRecv false, .transfer 4]).bind
        (fun s => s.run Platform.lp64 Platform.lp64
          [.callRecv, .socketRecv false, .socketRecv true]) ≠ none := by decide +kernel
  obtain ⟨s, hrun, hfields⟩ := map_eq_some_iff.mp hstate
  obtain ⟨s', hcall⟩ := ne_none_iff_exists'.mp hcall
  rw [hrun] at hcall
  simp only [Prod.mk.injEq] at hfields
  obtain ⟨hsent, hreceived, hreceiving, harrived⟩ := hfields
  have hreachable : (connections Platform.lp64 Platform.lp64 1024
      (Sendable Platform.lp64 1024)).Reachable s := by
    refine reachable_run (.init rfl) (fun data hdata => ?_) hrun
    have hletters : data = [65, 66] := by simpa using hdata
    rw [hletters]
    exact hsendable
  obtain ⟨hstarts, hnext⟩ := messages_delivered hreachable
  refine ⟨s, s', hrun, hcall, hstarts, ?_⟩
  rcases hnext [65, 66] (by rw [hsent, hreceived]; decide) hreceiving
    (by rw [hreceived, harrived]; decide) _ s' (fun data hdata => by simp at hdata) hcall with
    hgiven | ⟨-, hless, -⟩
  · exact hgiven
  · exact absurd hless (by decide)

/-- An empty message is lost: the operation for its data returns no byte, which is taken for the
end of the connection. -/
theorem empty_message_lost :
    ∃ s, (connections Platform.lp64 Platform.lp64 1024 (WithinLimit 1024)).Reachable s ∧
      s.sent = [[], [65]] ∧ s.received = [[65]] ∧ ¬ s.received <+: s.sent := by
  have hstate : ((Connection.create 1024).run Platform.lp64 Platform.lp64
      [.callSend [], .socketSend 4 false, .callSend [65], .socketSend 5 false, .transfer 9,
        .callRecv, .socketRecv false, .socketRecv false, .callRecv, .socketRecv false,
        .socketRecv false]).map (fun s => (s.sent, s.received)) =
      some ([[], [65]], [[65]]) := by decide +kernel
  obtain ⟨s, hrun, hfields⟩ := map_eq_some_iff.mp hstate
  obtain ⟨hsent, hreceived⟩ := Prod.mk.injEq .. ▸ hfields
  refine ⟨s, reachable_run (.init rfl) (fun data hdata => ?_) hrun, hsent, hreceived, ?_⟩
  · simp only [mem_cons, Event.callSend.injEq, reduceCtorEq, false_or, or_false,
      not_mem_nil] at hdata
    rcases hdata with rfl | rfl
    · exact .inr (by decide)
    · exact .inr (by decide)
  · rw [hsent, hreceived]
    decide

end Harbour.Rtl.Lpp
