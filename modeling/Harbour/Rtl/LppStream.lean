import Harbour.Rtl.Lpp

/-!
What one operation on the socket does to a side of a connection: the bytes that it has taken from
the stream are the beginning of the frame of a message, until they are the whole of it.
-/

namespace Harbour.Rtl.Lpp

open Library.Bytes List

def WithinLimit (nLimit : Nat) (data : Bytes) : Prop := nLimit = 0 ∨ data.length ≤ nLimit

/-- A message has bytes, and its length is read back by the receiver, which can ask for all of
them at once. -/
structure Carried (receiver : Platform) (data : Bytes) : Prop where
  nonempty : 0 < data.length
  fits : data.length < 2 ^ 32
  order : receiver.bigEndian = true →
    (putLeUint32 data.length).reverse = putLeUint32 data.length
  long : data.length ≤ receiver.longMax

theorem putLeUint32_length (n : Nat) : (putLeUint32 n).length = 4 := leBytes_length 4 n

theorem leValue_putLeUint32 {n : Nat} (hfits : n < 2 ^ 32) : leValue (putLeUint32 n) = n := by
  unfold putLeUint32
  rw [leValue_leBytes]
  exact Nat.mod_eq_of_lt (by omega)

theorem Carried.getUint32 {receiver : Platform} {data : Bytes} (h : Carried receiver data) :
    receiver.getUint32 (putLeUint32 data.length) = data.length := by
  unfold Platform.getUint32
  split
  · rename_i hbig
    rw [h.order hbig, leValue_putLeUint32 h.fits]
  · exact leValue_putLeUint32 h.fits

theorem frame_length (data : Bytes) : (frame data).length = 4 + data.length := by
  unfold frame
  rw [length_append, putLeUint32_length]

namespace HbLpp

def taken (pSocket : HbLpp) : Bytes :=
  match pSocket.pRecvBuffer with
  | none => []
  | some buffer =>
    (if pSocket.fRecvHasSize then putLeUint32 pSocket.nRecvSize else []) ++
      buffer.take pSocket.nRecvLen

/-- What holds of a receiver between two operations on the socket. -/
structure Sound (receiver : Platform) (nLimit : Nat) (pSocket : HbLpp) : Prop where
  limit : pSocket.nLimit = nLimit
  written : ∀ buffer, pSocket.pRecvBuffer = some buffer → pSocket.nRecvLen ≤ buffer.length
  size : pSocket.pRecvBuffer ≠ none → pSocket.fRecvHasSize = false → pSocket.nRecvLen < 4
  data : pSocket.pRecvBuffer ≠ none → pSocket.fRecvHasSize = true →
    pSocket.nRecvLen < pSocket.nRecvSize ∧ pSocket.nRecvSize < 2 ^ 32 ∧
      pSocket.nRecvSize ≤ receiver.longMax

variable {receiver : Platform} {nLimit : Nat} {pSocket : HbLpp} {buffer bytes tail : Bytes}
  {rest : List Bytes}

theorem sound_create : Sound receiver nLimit (create.setLimit nLimit) where
  limit := rfl
  written := fun _ h => nomatch h
  size := fun h => absurd rfl h
  data := fun h => absurd rfl h

theorem Sound.recvStart (h : Sound receiver nLimit pSocket) :
    Sound receiver nLimit pSocket.recvStart := by
  unfold HbLpp.recvStart
  split
  · exact ⟨h.limit, fun _ _ => Nat.zero_le _, fun _ _ => Nat.succ_pos 3, fun _ => nofun⟩
  · exact h

theorem recvStart_taken : pSocket.recvStart.taken = pSocket.taken := by
  unfold recvStart
  split
  · rename_i hnone
    simp [taken, hnone]
  · rfl

theorem recvStart_buffer : pSocket.recvStart.pRecvBuffer ≠ none := by
  unfold recvStart
  split
  · exact nofun
  · rename_i hsome
    rw [hsome]
    exact nofun

structure Going (receiver : Platform) (nLimit : Nat) (pSocket : HbLpp) (bytes : Bytes)
    (after : HbLpp × Option Result) : Prop where
  sound : Sound receiver nLimit after.1
  buffer : after.1.pRecvBuffer ≠ none
  taken : after.1.taken = pSocket.taken ++ bytes
  nothing : ∀ result, after.2 = some result → result.data = none

structure Delivered (receiver : Platform) (nLimit : Nat) (pSocket : HbLpp) (bytes data : Bytes)
    (after : HbLpp × Option Result) : Prop where
  sound : Sound receiver nLimit after.1
  buffer : after.1.pRecvBuffer = none
  whole : pSocket.taken ++ bytes = frame data
  result : after.2 = some ⟨some data, 0⟩

theorem first_frame (hstream : bytes ++ tail = rest.flatMap frame) (hne : bytes ≠ []) :
    ∃ data more, rest = data :: more ∧
      bytes ++ tail = putLeUint32 data.length ++ (data ++ more.flatMap frame) := by
  cases rest with
  | nil =>
    exact absurd (List.append_eq_nil_iff.mp hstream).1 hne
  | cons data more =>
    refine ⟨data, more, rfl, ?_⟩
    rw [hstream, flatMap_cons, frame, append_assoc]

theorem Sound.take_length (h : Sound receiver nLimit pSocket)
    (hbuffer : pSocket.pRecvBuffer = some buffer) :
    (buffer.take pSocket.nRecvLen).length = pSocket.nRecvLen := by
  rw [length_take]
  exact Nat.min_eq_left (h.written buffer hbuffer)

theorem store_buffer (hbuffer : pSocket.pRecvBuffer = some buffer) :
    (pSocket.store bytes).pRecvBuffer = some (buffer.take pSocket.nRecvLen ++ bytes) := by
  unfold store
  rw [hbuffer]
  rfl

theorem Sound.store_taken (h : Sound receiver nLimit pSocket)
    (hbuffer : pSocket.pRecvBuffer = some buffer) (bytes : Bytes) :
    (pSocket.store bytes).taken = pSocket.taken ++ bytes := by
  have hlength : (buffer.take pSocket.nRecvLen ++ bytes).length =
      pSocket.nRecvLen + bytes.length := by
    rw [length_append, h.take_length hbuffer]
  unfold taken
  rw [store_buffer hbuffer, hbuffer]
  show _ ++ List.take (pSocket.nRecvLen + bytes.length) _ = _
  rw [← hlength, List.take_length, append_assoc]
  rfl

theorem resize_eq (pSocket : HbLpp) (hbuffer : pSocket.pRecvBuffer = some buffer)
    (hne : pSocket.nRecvSize ≠ 0) :
    ∃ block, pSocket.resize = { pSocket with pRecvBuffer := some block } := by
  unfold resize
  split
  · exact ⟨buffer, by rw [← hbuffer]⟩
  · refine ⟨buffer.take pSocket.nRecvSize, ?_⟩
    rw [hbuffer]
    rfl

theorem going_sized (pSocket : HbLpp) {data : Bytes} (hlimit : pSocket.nLimit = nLimit)
    (hbuffer : pSocket.pRecvBuffer = some (putLeUint32 data.length))
    (hwithin : WithinLimit nLimit data) (hcarried : Carried receiver data) :
    (pSocket.recvSized receiver).1.fRecvHasSize = true ∧
      (pSocket.recvSized receiver).2 = none ∧
      (pSocket.recvSized receiver).1.taken = putLeUint32 data.length ∧
      (pSocket.recvSized receiver).1.pRecvBuffer ≠ none ∧
      Sound receiver nLimit (pSocket.recvSized receiver).1 := by
  have hsize : receiver.getUint32 (pSocket.pRecvBuffer.getD []) = data.length := by
    rw [hbuffer]
    exact hcarried.getUint32
  have hsmall : ¬ (pSocket.nLimit ≠ 0 ∧ data.length > pSocket.nLimit) := by
    rw [hlimit]
    rintro ⟨hne, hgt⟩
    rcases hwithin with hzero | hle
    · exact hne hzero
    · omega
  have hne : data.length ≠ 0 := Nat.pos_iff_ne_zero.mp hcarried.nonempty
  obtain ⟨block, hblock⟩ := resize_eq
    { pSocket with nRecvSize := data.length, nRecvLen := 0, fRecvHasSize := true } hbuffer hne
  unfold recvSized
  simp only [hsize, if_neg hsmall]
  rw [hblock]
  refine ⟨rfl, trivial, ?_, nofun, hlimit, fun _ _ => Nat.zero_le _, fun _ => nofun, fun _ _ => ?_⟩
  · exact append_nil _
  · exact ⟨hcarried.nonempty, hcarried.fits, hcarried.long⟩

section

variable (h : Sound receiver nLimit pSocket) (hbuffer : pSocket.pRecvBuffer = some buffer)

include h hbuffer

theorem going_size (hsize : pSocket.fRecvHasSize = false) (hne : bytes ≠ [])
    (hask : bytes.length ≤ 4 - pSocket.nRecvLen)
    (hstream : pSocket.taken ++ bytes ++ tail = rest.flatMap frame)
    (hrest : ∀ data ∈ rest, WithinLimit nLimit data ∧ Carried receiver data) :
    Going receiver nLimit pSocket bytes (pSocket.recvSize receiver bytes) ∧
      (bytes.length = 4 - pSocket.nRecvLen →
        (pSocket.recvSize receiver bytes).2 = none ∧
          (pSocket.recvSize receiver bytes).1.fRecvHasSize = true) := by
  have hless : pSocket.nRecvLen < 4 := h.size (by rw [hbuffer]; exact nofun) hsize
  have hstored := h.store_taken hbuffer bytes
  have hlen : (pSocket.store bytes).nRecvLen = pSocket.nRecvLen + bytes.length := rfl
  have htaken : pSocket.taken = buffer.take pSocket.nRecvLen := by
    simp [taken, hbuffer, hsize]
  have hlength : (buffer.take pSocket.nRecvLen ++ bytes).length =
      pSocket.nRecvLen + bytes.length := by
    rw [length_append, h.take_length hbuffer]
  unfold recvSize
  rw [if_neg hne]
  split
  · rename_i hlt
    refine ⟨⟨⟨h.limit, ?_, fun _ _ => hlt, fun _ htrue => ?_⟩, ?_, hstored, ?_⟩, fun heq => ?_⟩
    · intro whole hwhole
      rw [show ((pSocket.store bytes).fail errTimeout).1.pRecvBuffer = _ from
        store_buffer hbuffer] at hwhole
      injection hwhole with hwhole
      rw [← hwhole, hlength]
      exact Nat.le_refl _
    · exact absurd (hsize.symm.trans htrue) (by decide)
    · rw [show ((pSocket.store bytes).fail errTimeout).1.pRecvBuffer = _ from
        store_buffer hbuffer]
      exact nofun
    · rintro result ⟨⟩
      rfl
    · omega
  · rename_i hnot
    have hfour : pSocket.nRecvLen + bytes.length = 4 := by omega
    rw [htaken, append_assoc] at hstream
    obtain ⟨data, more, hcons, hframe⟩ := first_frame
      ((append_assoc ..).trans hstream) (append_ne_nil_of_right_ne_nil _ hne)
    have hheader : buffer.take pSocket.nRecvLen ++ bytes = putLeUint32 data.length :=
      (append_inj hframe (by rw [hlength, putLeUint32_length, hfour])).1
    have hallowed := hrest data (hcons ▸ mem_cons_self ..)
    obtain ⟨hhas, hnone, htook, hsome, hsound⟩ := going_sized (pSocket.store bytes)
      h.limit (hheader ▸ store_buffer hbuffer) hallowed.1 hallowed.2
    refine ⟨⟨hsound, hsome, ?_, fun result hresult => ?_⟩, fun _ => ⟨hnone, hhas⟩⟩
    · rw [htook, htaken, hheader]
    · rw [hnone] at hresult
      exact nomatch hresult

theorem Sound.size_eq (hsize : pSocket.fRecvHasSize = true)
    (hstream : pSocket.taken ++ tail = rest.flatMap frame)
    (hrest : ∀ data ∈ rest, Carried receiver data) :
    ∃ data more, rest = data :: more ∧ pSocket.nRecvSize = data.length ∧
      pSocket.taken = putLeUint32 data.length ++ buffer.take pSocket.nRecvLen ∧
      buffer.take pSocket.nRecvLen ++ tail = data ++ more.flatMap frame := by
  have htaken : pSocket.taken =
      putLeUint32 pSocket.nRecvSize ++ buffer.take pSocket.nRecvLen := by
    simp [taken, hbuffer, hsize]
  have hfits := (h.data (by rw [hbuffer]; exact nofun) hsize).2.1
  rw [htaken, append_assoc] at hstream
  obtain ⟨data, more, hcons, hframe⟩ := first_frame hstream
    (ne_nil_of_length_pos (by rw [putLeUint32_length]; exact Nat.succ_pos 3))
  obtain ⟨hheader, hcontent⟩ := append_inj hframe
    (by rw [putLeUint32_length, putLeUint32_length])
  refine ⟨data, more, hcons, ?_, htaken.trans (by rw [hheader]), hcontent⟩
  rw [← leValue_putLeUint32 hfits, hheader,
    leValue_putLeUint32 (hrest data (hcons ▸ mem_cons_self ..)).fits]

theorem going_data (hsize : pSocket.fRecvHasSize = true) (hne : bytes ≠ [])
    (hask : bytes.length ≤ pSocket.nRecvSize - pSocket.nRecvLen)
    (hstream : pSocket.taken ++ bytes ++ tail = rest.flatMap frame)
    (hrest : ∀ data ∈ rest, Carried receiver data) (expired : Bool) :
    (bytes.length < pSocket.nRecvSize - pSocket.nRecvLen ∧
      Going receiver nLimit pSocket bytes (pSocket.recvData bytes expired)) ∨
    ∃ data more, rest = data :: more ∧
      Delivered receiver nLimit pSocket bytes data (pSocket.recvData bytes expired) := by
  obtain ⟨hless, hfits, hlong⟩ := h.data (by rw [hbuffer]; exact nofun) hsize
  have hstored := h.store_taken hbuffer bytes
  have hlength : (buffer.take pSocket.nRecvLen ++ bytes).length =
      pSocket.nRecvLen + bytes.length := by
    rw [length_append, h.take_length hbuffer]
  have hfields : (pSocket.store bytes).nRecvSize = pSocket.nRecvSize ∧
      (pSocket.store bytes).nRecvLen = pSocket.nRecvLen + bytes.length := ⟨rfl, rfl⟩
  unfold recvData
  rw [if_neg hne]
  simp only [hfields]
  split
  · rename_i hwhole
    right
    rw [append_assoc] at hstream
    obtain ⟨data, more, hcons, hlen, htaken, hcontent⟩ := h.size_eq hbuffer hsize hstream hrest
    rw [← append_assoc] at hcontent
    have hdata : buffer.take pSocket.nRecvLen ++ bytes = data :=
      (append_inj hcontent (by rw [hlength, ← hwhole, hlen])).1
    refine ⟨data, more, hcons,
      ⟨⟨h.limit, nofun, fun hnone => absurd rfl hnone, fun hnone => absurd rfl hnone⟩, rfl, ?_, ?_⟩⟩
    · rw [htaken, append_assoc, hdata]
      rfl
    · rw [store_buffer hbuffer, hdata]
  · rename_i hpart
    left
    have hsound : Sound receiver nLimit (pSocket.store bytes) := by
      refine ⟨h.limit, fun whole hwhole => ?_, fun _ hfalse => ?_, fun _ _ => ?_⟩
      · rw [store_buffer hbuffer] at hwhole
        injection hwhole with hwhole
        rw [← hwhole, hlength]
        exact Nat.le_refl _
      · exact absurd (hsize.symm.trans hfalse) (by decide)
      · rw [hfields.1, hfields.2]
        exact ⟨by omega, hfits, hlong⟩
    have hsome : (pSocket.store bytes).pRecvBuffer ≠ none := by
      rw [store_buffer hbuffer]
      exact nofun
    refine ⟨by omega, ?_⟩
    split
    · refine ⟨⟨hsound.limit, hsound.written, hsound.size, hsound.data⟩, hsome, hstored, ?_⟩
      rintro result ⟨⟩
      rfl
    · exact ⟨hsound, hsome, hstored, nofun⟩

end

section

variable (h : Sound receiver nLimit pSocket) (hbuffer : pSocket.pRecvBuffer ≠ none)

include h hbuffer

theorem Sound.recvAsk_eq : 0 < pSocket.recvAsk receiver ∧
      pSocket.recvAsk receiver = if pSocket.fRecvHasSize then pSocket.nRecvSize - pSocket.nRecvLen
        else 4 - pSocket.nRecvLen := by
  unfold recvAsk
  rcases Bool.eq_false_or_eq_true pSocket.fRecvHasSize with hsize | hsize
  · obtain ⟨hless, -, hmax⟩ := h.data hbuffer hsize
    simp only [hsize, if_neg (show ¬ true = false by decide), if_true]
    split
    · exact ⟨by omega, rfl⟩
    · exact ⟨by omega, by omega⟩
  · have hless := h.size hbuffer hsize
    simp only [hsize, if_true]
    exact ⟨by omega, rfl⟩

theorem Sound.recvAfter (hne : bytes ≠ []) (hask : bytes.length ≤ pSocket.recvAsk receiver)
    (hstream : pSocket.taken ++ bytes ++ tail = rest.flatMap frame)
    (hrest : ∀ data ∈ rest, WithinLimit nLimit data ∧ Carried receiver data) (expired : Bool) :
    Going receiver nLimit pSocket bytes (pSocket.recvAfter receiver bytes expired) ∧
      (bytes.length = pSocket.recvAsk receiver → pSocket.fRecvHasSize = false ∧
        (pSocket.recvAfter receiver bytes expired).2 = none ∧
        (pSocket.recvAfter receiver bytes expired).1.fRecvHasSize = true) ∨
    ∃ data more, rest = data :: more ∧
      Delivered receiver nLimit pSocket bytes data (pSocket.recvAfter receiver bytes expired) := by
  obtain ⟨buffer, hsome⟩ := Option.ne_none_iff_exists'.mp hbuffer
  have heq := (h.recvAsk_eq hbuffer).2
  unfold HbLpp.recvAfter
  rcases Bool.eq_false_or_eq_true pSocket.fRecvHasSize with hsize | hsize
  · simp only [hsize, if_true] at heq ⊢
    rw [heq] at hask ⊢
    rcases going_data h hsome hsize hne hask hstream (fun data hdata => (hrest data hdata).2)
      expired with ⟨hlt, hgoing⟩ | hdelivered
    · exact .inl ⟨hgoing, fun hall => absurd hall (Nat.ne_of_lt hlt)⟩
    · exact .inr hdelivered
  · simp only [hsize, if_neg (show ¬ false = true by decide)] at heq ⊢
    rw [heq] at hask ⊢
    obtain ⟨hgoing, hall⟩ := going_size h hsome hsize hne hask hstream hrest
    exact .inl ⟨hgoing, fun heq => ⟨trivial, hall heq⟩⟩

end

end HbLpp

end Harbour.Rtl.Lpp
