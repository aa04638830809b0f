import Harbour.Json.Items

/-!
The text that the encoder produces for an acyclic item, written as a function of
the value it denotes.
-/

namespace Harbour.Json.Text

open Items List Encode

variable {D : Type}

mutual

/-- `p` holds of the value and of everything inside it. -/
def Everywhere (p : Value D → Prop) : Value D → Prop
  | .array items => p (.array items) ∧ EverywhereItems p items
  | .hash pairs => p (.hash pairs) ∧ EverywherePairs p pairs
  | .nil => p .nil
  | .logical value => p (.logical value)
  | .numInt value => p (.numInt value)
  | .double value decimals => p (.double value decimals)
  | .string value => p (.string value)

def EverywhereItems (p : Value D → Prop) : List (Value D) → Prop
  | [] => True
  | item :: items => Everywhere p item ∧ EverywhereItems p items

def EverywherePairs (p : Value D → Prop) : List (Bytes × Value D) → Prop
  | [] => True
  | (_, item) :: pairs => Everywhere p item ∧ EverywherePairs p pairs

end

def indentText (ctx : EncodeCtx) (nLevel : Nat) : Bytes :=
  jsonCtxAddIndent ctx nLevel []

/-- The indented form starts a line for every item, every pair and every closing
bracket. -/
def lineStart (ctx : EncodeCtx) (nLevel : Nat) : Bytes :=
  if ctx.iIndent = 0 then [] else ctx.szEol ++ indentText ctx nLevel

theorem jsonCtxAddIndent_eq (ctx : EncodeCtx) (nLevel : Nat) (buffer : Bytes) :
    jsonCtxAddIndent ctx nLevel buffer = buffer ++ indentText ctx nLevel := by
  unfold indentText jsonCtxAddIndent
  split <;> simp

theorem newLine_eq (ctx : EncodeCtx) (nLevel : Nat) (buffer : Bytes) :
    newLine ctx nLevel buffer = buffer ++ lineStart ctx nLevel := by
  unfold newLine lineStart
  by_cases h : ctx.iIndent = 0
  · simp [h]
  · simp [h, jsonCtxAddIndent_eq]

def isFilledValue : Value D → Bool
  | .array (_ :: _) => true
  | .hash (_ :: _) => true
  | _ => false

def colonText (ctx : EncodeCtx) (nLevel : Nat) (value : Value D) : Bytes :=
  if ctx.iIndent = 0 then [0x3A]
  else if isFilledValue value then [0x3A] ++ lineStart ctx (nLevel + 1) else [0x3A, 0x20]

mutual

def jsonText (ctx : EncodeCtx) (nLevel : Nat) : Value D → Bytes
  | .nil => nullText
  | .logical value => if value then trueText else falseText
  | .numInt value => jsonIntText value
  | .double _ _ => nullText
  | .string value => jsonStringText value
  | .array [] => [0x5B, 0x5D]
  | .array (item :: items) =>
    [0x5B] ++ (lineStart ctx (nLevel + 1) ++ jsonText ctx (nLevel + 1) item) ++
      itemsText ctx nLevel items ++ lineStart ctx nLevel ++ [0x5D]
  | .hash [] => [0x7B, 0x7D]
  | .hash ((key, item) :: pairs) =>
    [0x7B] ++ (lineStart ctx (nLevel + 1) ++ jsonStringText key ++
      colonText ctx nLevel item ++ jsonText ctx (nLevel + 1) item) ++
      pairsText ctx nLevel pairs ++ lineStart ctx nLevel ++ [0x7D]

def itemsText (ctx : EncodeCtx) (nLevel : Nat) : List (Value D) → Bytes
  | [] => []
  | item :: items =>
    [0x2C] ++ (lineStart ctx (nLevel + 1) ++ jsonText ctx (nLevel + 1) item) ++
      itemsText ctx nLevel items

def pairsText (ctx : EncodeCtx) (nLevel : Nat) : List (Bytes × Value D) → Bytes
  | [] => []
  | (key, item) :: pairs =>
    [0x2C] ++ (lineStart ctx (nLevel + 1) ++ jsonStringText key ++
      colonText ctx nLevel item ++ jsonText ctx (nLevel + 1) item) ++
      pairsText ctx nLevel pairs

end

def leadText (ctx : EncodeCtx) (nLevel : Nat) (value : Value D) : Bytes :=
  if ctx.iIndent ≠ 0 ∧ isFilledValue value then indentText ctx nLevel else []

variable {depth nLevel : Nat} {id : Id} {ctx : EncodeCtx}

theorem isFilled_eq {heap : Heap D} {item : Item D} {value : Value D}
    (h : valueOf heap depth item = some value) : heap.isFilled item = isFilledValue value := by
  cases item with
  | container id =>
    cases depth with
    | zero => cases id <;> simp [valueOf] at h
    | succ depth =>
      cases id with
      | array index =>
        obtain ⟨values, rfl, hvalues⟩ := valueOf_array.mp h
        rw [Heap.isFilled, Heap.itemSize, hvalues.length_eq]
        cases values <;> simp [isFilledValue]
      | hash index =>
        obtain ⟨pairs, rfl, hpairs⟩ := valueOf_hash.mp h
        rw [Heap.isFilled, Heap.itemSize, hpairs.length_eq]
        cases pairs <;> simp [isFilledValue]
  | _ =>
    cases depth <;> simp only [valueOf, Option.some.injEq, reduceCtorEq] at h <;>
      subst h <;> rfl

def itemText (ctx : EncodeCtx) (nLevel : Nat) (value : Value D) : Bytes :=
  leadText ctx nLevel value ++ jsonText ctx nLevel value

theorem itemLine_eq (ctx : EncodeCtx) (nLevel : Nat) (value : Value D) (filled : Bool)
    (hfilled : filled = isFilledValue value) (buffer : Bytes) :
    (if ctx.iIndent ≠ 0 ∧ ¬ filled then
        jsonCtxAddIndent ctx nLevel
          (if ctx.iIndent ≠ 0 then buffer ++ ctx.szEol else buffer)
      else if ctx.iIndent ≠ 0 then buffer ++ ctx.szEol else buffer) ++
        itemText ctx nLevel value =
      buffer ++ (lineStart ctx nLevel ++ jsonText ctx nLevel value) := by
  subst hfilled
  by_cases hindent : ctx.iIndent = 0
  · simp [hindent, itemText, leadText, lineStart]
  · cases hvalue : isFilledValue value <;>
      simp [hindent, hvalue, itemText, leadText, lineStart, jsonCtxAddIndent_eq]

section

variable {heap : Heap D} {encode : Item D → Bytes → Option Bytes} {items : List (Item D)}
  {values : List (Value D)} (hencode : ∀ item value buffer result,
    valueOf heap depth item = some value → encode item buffer = some result →
      result = buffer ++ itemText ctx (nLevel + 1) value) {nIndex : Nat} {buffer result : Bytes}

include hencode

theorem encodeItems_step {item : Item D} {value : Value D}
    (hvalue : valueOf heap depth item = some value)
    (h : encodeItems encode heap ctx nLevel nIndex (item :: items) buffer = some result) :
    encodeItems encode heap ctx nLevel (nIndex + 1) items
      ((if nIndex > 1 then buffer ++ [0x2C] else buffer) ++
        (lineStart ctx (nLevel + 1) ++ jsonText ctx (nLevel + 1) value)) = some result := by
  simp only [encodeItems] at h
  split at h
  · rename_i buffer' hbuffer
    have htext := hencode item value _ _ hvalue hbuffer
    rw [itemLine_eq ctx (nLevel + 1) value _ (isFilled_eq hvalue)] at htext
    rw [← h, htext]
  · cases h

variable (hvalues : Forall₂ (fun item value => valueOf heap depth item = some value) items values)

include hvalues

theorem encodeItems_text (hindex : nIndex > 1)
    (h : encodeItems encode heap ctx nLevel nIndex items buffer = some result) :
    result = buffer ++ itemsText ctx nLevel values := by
  induction hvalues generalizing nIndex buffer with
  | nil =>
    cases h
    simp [itemsText]
  | cons hvalue _ ih =>
    have hrest := ih (by omega) (encodeItems_step hencode hvalue h)
    rw [if_pos hindex] at hrest
    rw [hrest, itemsText]
    simp only [append_assoc]

theorem encodeArray_text (h : encodeArray encode heap ctx nLevel items buffer = some result) :
    result = buffer ++ itemText ctx nLevel (.array values) := by
  cases hvalues with
  | nil =>
    cases h
    simp [itemText, leadText, isFilledValue, jsonText]
  | cons hvalue hvalues =>
    obtain ⟨inner, hinner, rfl⟩ := Option.map_eq_some_iff.mp h
    rw [encodeItems_text hencode hvalues (by omega) (encodeItems_step hencode hvalue hinner),
      newLine_eq]
    by_cases hindent : ctx.iIndent = 0
    · simp [hindent, itemText, leadText, jsonText]
    · simp [hindent, itemText, leadText, isFilledValue, jsonText, jsonCtxAddIndent_eq]

end

def eolBuffer (ctx : EncodeCtx) (fEOL : Bool) (buffer : Bytes) : Bytes :=
  if fEOL then buffer.dropLast ++ ctx.szEol else buffer

theorem pairColon_eq (ctx : EncodeCtx) (nLevel : Nat) (value : Value D) (filled : Bool)
    (hfilled : filled = isFilledValue value) (buffer : Bytes) :
    eolBuffer ctx (decide (ctx.iIndent ≠ 0) && filled)
        (if ctx.iIndent ≠ 0 then buffer ++ [0x3A, 0x20] else buffer ++ [0x3A]) ++
        itemText ctx (nLevel + 1) value =
      buffer ++ (colonText ctx nLevel value ++ jsonText ctx (nLevel + 1) value) := by
  subst hfilled
  by_cases hindent : ctx.iIndent = 0
  · simp [hindent, eolBuffer, itemText, leadText, colonText]
  · have hblank : (buffer ++ [0x3A, 0x20]).dropLast = buffer ++ [0x3A] := by
      rw [dropLast_append_of_ne_nil (by simp)]
      rfl
    cases hvalue : isFilledValue value
    · simp [hindent, hvalue, eolBuffer, itemText, leadText, colonText]
    · simp [hindent, hvalue, eolBuffer, itemText, leadText, colonText, lineStart, hblank]

section

variable {heap : Heap D} {encode : Bool → Item D → Bytes → Option Bytes}
  {pairs : List (Item D × Item D)} {entries : List (Bytes × Value D)}
  (hencode : ∀ fEOL item value buffer result,
    valueOf heap depth item = some value → encode fEOL item buffer = some result →
      result = eolBuffer ctx fEOL buffer ++ itemText ctx (nLevel + 1) value) {nIndex : Nat}
  {buffer result : Bytes}

include hencode

theorem encodePairs_step {pair : Item D × Item D} {entry : Bytes × Value D}
    (hentry : pairValueOf heap depth pair = some entry)
    (h : encodePairs encode heap ctx nLevel nIndex (pair :: pairs) buffer = some result) :
    encodePairs encode heap ctx nLevel (nIndex + 1) pairs
      ((if nIndex > 1 then buffer ++ [0x2C] else buffer) ++
        (lineStart ctx (nLevel + 1) ++ jsonStringText entry.1 ++
          colonText ctx nLevel entry.2 ++ jsonText ctx (nLevel + 1) entry.2)) =
      some result := by
  obtain ⟨hstring, hvalue⟩ := pairValueOf_eq_some hentry
  obtain ⟨key, item⟩ := pair
  subst hstring
  have hkey : valueOf heap depth (.string entry.1) = some (.string entry.1) := by
    cases depth <;> rfl
  simp only [encodePairs] at h
  split at h
  · rename_i keyBuffer hkeyBuffer
    split at h
    · rename_i itemBuffer hitemBuffer
      have htext := hencode _ _ _ _ _ hkey hkeyBuffer
      have hitem := hencode _ _ _ _ _ hvalue hitemBuffer
      rw [pairColon_eq ctx nLevel entry.2 _ (isFilled_eq hvalue)] at hitem
      rw [← h, hitem, htext, newLine_eq]
      simp [eolBuffer, itemText, leadText, isFilledValue, jsonText]
    · cases h
  · cases h

variable (hentries : Forall₂ (fun pair entry => pairValueOf heap depth pair = some entry) pairs
  entries)

include hentries

theorem encodePairs_text (hindex : nIndex > 1)
    (h : encodePairs encode heap ctx nLevel nIndex pairs buffer = some result) :
    result = buffer ++ pairsText ctx nLevel entries := by
  induction hentries generalizing nIndex buffer with
  | nil =>
    cases h
    simp [pairsText]
  | cons hentry _ ih =>
    have hrest := ih (by omega) (encodePairs_step hencode hentry h)
    rw [if_pos hindex] at hrest
    rw [hrest, pairsText]
    simp only [append_assoc]

theorem encodeHash_text (h : encodeHash encode heap ctx nLevel pairs buffer = some result) :
    result = buffer ++ itemText ctx nLevel (.hash entries) := by
  cases hentries with
  | nil =>
    cases h
    simp [itemText, leadText, isFilledValue, jsonText]
  | cons hentry hentries =>
    obtain ⟨inner, hinner, rfl⟩ := Option.map_eq_some_iff.mp h
    rw [encodePairs_text hencode hentries (by omega) (encodePairs_step hencode hentry hinner),
      newLine_eq]
    by_cases hindent : ctx.iIndent = 0
    · simp [hindent, itemText, leadText, jsonText]
    · simp [hindent, itemText, leadText, isFilledValue, jsonText, jsonCtxAddIndent_eq]

end

theorem valueOf_container_depth {heap : Heap D} {value : Value D}
    (h : valueOf heap depth (.container id) = some value) :
    ∃ depth', depth' < depth ∧ valueOf heap depth' (.container id) = none ∧
      valueOf heap (depth' + 1) (.container id) = some value := by
  induction depth with
  | zero => cases id <;> simp [valueOf] at h
  | succ depth ih =>
    cases hbelow : valueOf heap depth (.container id) with
    | none => exact ⟨depth, by omega, hbelow, h⟩
    | some value' =>
      have heq : value' = value := by
        have := valueOf_succ hbelow
        rw [h] at this
        exact (Option.some.inj this).symm
      obtain ⟨depth', hlt, hresult⟩ := ih (heq ▸ hbelow)
      exact ⟨depth', by omega, hresult⟩

theorem jsonEncode_text (texts : ItemTexts D) (heap : Heap D) (ctx : EncodeCtx) (fuel : Nat)
    (pId : List Id) (nLevel depth : Nat) (fEOL : Bool) (item : Item D) (value : Value D)
    (buffer result : Bytes) (hpath : ∀ id ∈ pId, valueOf heap depth (.container id) = none)
    (hvalue : valueOf heap depth item = some value)
    (h : jsonEncode texts heap ctx fuel pId nLevel fEOL item buffer = some result) :
    result = eolBuffer ctx fEOL buffer ++ itemText ctx nLevel value := by
  induction fuel generalizing pId nLevel depth fEOL item value buffer result with
  | zero => cases h
  | succ fuel ih =>
    have hguard : isRecursive pId item = false := by
      cases item with
      | container id =>
        rw [isRecursive, decide_eq_false_iff_not]
        intro hid
        rw [hpath id hid] at hvalue
        cases hvalue
      | _ => rfl
    have hpath' : ∀ {depth' : Nat} {id : Id}, depth' < depth →
        valueOf heap depth' (.container id) = none →
        ∀ id' ∈ pId ++ [id], valueOf heap depth' (.container id') = none := by
      intro depth' id hlt hid id' hmem
      rcases mem_append.mp hmem with hold | hnew
      · by_contra hsome
        obtain ⟨value', hvalue'⟩ := Option.ne_none_iff_exists'.mp hsome
        have := valueOf_mono (Nat.le_of_lt hlt) hvalue'
        rw [hpath id' hold] at this
        cases this
      · rw [mem_singleton.mp hnew]
        exact hid
    simp only [jsonEncode, hguard, Bool.false_eq_true, and_false, if_false] at h
    cases item with
    | container id =>
      obtain ⟨depth', hlt, hnone, hsome⟩ := valueOf_container_depth hvalue
      cases id with
      | array index =>
        obtain ⟨values, rfl, hvalues⟩ := valueOf_array.mp hsome
        refine encodeArray_text (fun _ _ _ _ hitem hresult => ?_) hvalues h
        exact ih _ _ _ _ _ _ _ _ (hpath' hlt hnone) hitem hresult
      | hash index =>
        obtain ⟨entries, rfl, hentries⟩ := valueOf_hash.mp hsome
        exact encodeHash_text (fun _ _ _ _ _ hitem hresult =>
          ih _ _ _ _ _ _ _ _ (hpath' hlt hnone) hitem hresult) hentries h
    | _ =>
      cases depth <;> simp only [valueOf, Option.some.injEq, reduceCtorEq] at hvalue <;>
        subst hvalue <;> cases h <;>
        simp [eolBuffer, itemText, leadText, isFilledValue, jsonText]

theorem encodeItems_isSome {heap : Heap D} {encode : Item D → Bytes → Option Bytes}
    (hencode : ∀ item buffer, (encode item buffer).isSome) (items : List (Item D)) (nIndex : Nat)
    (buffer : Bytes) :
    (encodeItems encode heap ctx nLevel nIndex items buffer).isSome := by
  induction items generalizing nIndex buffer with
  | nil => rfl
  | cons item items ih =>
    simp only [encodeItems]
    split
    · exact ih _ _
    · rename_i hnone
      exact absurd (hencode item _) (by rw [hnone]; simp)

theorem encodePairs_isSome {heap : Heap D} {encode : Bool → Item D → Bytes → Option Bytes}
    (hencode : ∀ fEOL item buffer, (encode fEOL item buffer).isSome)
    (pairs : List (Item D × Item D)) (nIndex : Nat) (buffer : Bytes) :
    (encodePairs encode heap ctx nLevel nIndex pairs buffer).isSome := by
  induction pairs generalizing nIndex buffer with
  | nil => rfl
  | cons pair pairs ih =>
    obtain ⟨key, item⟩ := pair
    cases key with
    | string key =>
      simp only [encodePairs]
      obtain ⟨keyBuffer, hkey⟩ := Option.isSome_iff_exists.mp
        (hencode false (.string key)
          (newLine ctx (nLevel + 1) (if nIndex > 1 then buffer ++ [0x2C] else buffer)))
      rw [hkey]
      obtain ⟨itemBuffer, hitem⟩ := Option.isSome_iff_exists.mp
        (hencode (decide (ctx.iIndent ≠ 0) && heap.isFilled item) item
          (if ctx.iIndent ≠ 0 then keyBuffer ++ [0x3A, 0x20] else keyBuffer ++ [0x3A]))
      simp only [hitem]
      exact ih _ _
    | _ => exact ih _ _

theorem mem_heapIds {heap : Heap D} (h : heap.itemSize id > 0) : id ∈ heapIds heap := by
  cases id with
  | array index =>
    simp only [heapIds, mem_append, mem_map, mem_range]
    refine .inl ⟨index, ?_, rfl⟩
    by_contra hge
    simp [Heap.itemSize, Heap.arrayItems, getElem?_eq_none (Nat.not_lt.mp hge)] at h
  | hash index =>
    simp only [heapIds, mem_append, mem_map, mem_range]
    refine .inr ⟨index, ?_, rfl⟩
    by_contra hge
    simp [Heap.itemSize, Heap.hashPairs, getElem?_eq_none (Nat.not_lt.mp hge)] at h

theorem jsonEncode_isSome (texts : ItemTexts D) (heap : Heap D) (ctx : EncodeCtx)
    (fuel : Nat) (pId : List Id) (nLevel : Nat) (fEOL : Bool) (item : Item D)
    (buffer : Bytes) (hnodup : pId.Nodup) (hsubset : pId ⊆ heapIds heap)
    (hfuel : (heapIds heap).length < fuel + pId.length) :
    (jsonEncode texts heap ctx fuel pId nLevel fEOL item buffer).isSome := by
  induction fuel generalizing pId nLevel fEOL item buffer with
  | zero =>
    have := (subperm_of_subset hnodup hsubset).length_le
    omega
  | succ fuel ih =>
    rw [jsonEncode]
    split
    · rfl
    · rename_i hguard
      have hchild : ∀ id, item = .container id → heap.itemSize id > 0 →
          ∀ fEOL item buffer, (jsonEncode texts heap ctx fuel (pId ++ [id]) (nLevel + 1)
            fEOL item buffer).isSome := by
        rintro id rfl hfilled fEOL item buffer
        have hfresh : id ∉ pId := by
          simpa [Heap.isFilled, hfilled, isRecursive] using hguard
        apply ih
        · exact nodup_append.mpr ⟨hnodup, by simp, by
            rintro a ha b hb rfl
            exact hfresh (mem_singleton.mp hb ▸ ha)⟩
        · exact append_subset.mpr ⟨hsubset, by simpa using mem_heapIds hfilled⟩
        · simp only [length_append, length_singleton]
          omega
      cases item with
      | container id =>
        cases id with
        | array index =>
          simp only [encodeArray]
          split
          · rename_i hfilled
            rw [Option.isSome_map]
            exact encodeItems_isSome (hchild _ rfl hfilled false) _ _ _
          · rfl
        | hash index =>
          simp only [encodeHash]
          split
          · rename_i hfilled
            rw [Option.isSome_map]
            exact encodePairs_isSome (hchild _ rfl hfilled) _ _ _
          · rfl
      | _ => rfl

theorem jsonEncodeCP_text (texts : ItemTexts D) (heap : Heap D) (iIndent : Int)
    (setEol conNewLine : Bytes) {item : Item D} {value : Value D}
    (hvalue : Denotes heap item value) :
    ∃ ctx : EncodeCtx, ctx.iIndent = iIndent ∧
      ctx.szEol = (if setEol = [] then conNewLine else setEol) ∧
      jsonEncodeCP texts heap iIndent setEol conNewLine item =
        some (jsonText ctx 0 value ++ lineStart ctx 0) := by
  obtain ⟨depth, hvalue⟩ := hvalue
  refine ⟨⟨iIndent, if setEol = [] then conNewLine else setEol⟩, rfl, rfl, ?_⟩
  obtain ⟨buffer, hbuffer⟩ := Option.isSome_iff_exists.mp
    (jsonEncode_isSome texts heap ⟨iIndent, if setEol = [] then conNewLine else setEol⟩
      ((heapIds heap).length + 1) [] 0 false item [] nodup_nil (by simp) (by simp))
  have htext := jsonEncode_text texts heap _ _ _ _ depth _ _ _ _ _ (by simp) hvalue hbuffer
  simp only [jsonEncodeCP, hbuffer, Option.map_some, htext]
  by_cases hindent : iIndent = 0 <;>
    simp [hindent, eolBuffer, itemText, leadText, lineStart, indentText, jsonCtxAddIndent]

end Harbour.Json.Text
