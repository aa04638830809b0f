import Harbour.Library.OrderedMap
import Harbour.Vm.HashKey
import Harbour.Vm.HashOrder

/-!
The hash as an ordered map, over every run of its operations under fixed flags.
-/

namespace Harbour.Vm.HashMap

open Library.KeyOrder Library.OrderedMap HashTable HashUpdate HashPairs HashSound
  HashKey List Option

variable {K V : Type}

section Runs

/-- The operations that store and remove pairs, and `HB_HALLOCATE` and `HB_HSORT`. -/
inductive Update (K V : Type) where
  | add (key : K) (value : V)
  | addNew (key : K) (value : V)
  | access (key : K)
  | del (key : K)
  | delAt (nPos : Nat)
  | clear
  | preallocate (nNewSize : Nat)
  | sort
deriving DecidableEq, Repr

def Update.Uses (keys : Set K) : Update K V → Prop
  | .add key _ | .addNew key _ | .access key | .del key => key ∈ keys
  | _ => True

def update (cmp : HashFlags → K → K → Int) (nilPair : K × V) (t : BaseHash K V) :
    Update K V → Except HashFault (BaseHash K V)
  | .add key value => .ok (hashAdd cmp t key value)
  | .addNew key value => .ok (hashAddNew cmp t key value).2
  | .access key => .ok (hashAccess cmp nilPair.2 t key).1
  | .del key => .ok (hashDel cmp t key).2
  | .delAt nPos => .ok (hashDelAt t nPos).2
  | .clear => .ok (hashClear t)
  | .preallocate nNewSize => .ok (hashResize t nNewSize)
  | .sort => hashSort nilPair cmp t

def Update.apply (cmp : K → K → Int) (iFlags : HashFlags) (default : V) :
    Update K V → KeyMap K V → KeyMap K V
  | .add key value, m => store cmp iFlags.keepOrder key value m
  | .addNew key value, m => storeNew cmp iFlags.keepOrder key value m
  | .access key, m =>
    if iFlags.autoAddAccess then storeNew cmp iFlags.keepOrder key default m else m
  | .del key, m => erase cmp key m
  | .delAt nPos, m => if 0 < nPos then eraseAt cmp (nPos - 1) m else m
  | .clear, _ => empty
  | .preallocate _, m => m
  | .sort, m => Library.OrderedMap.sort cmp m

/-- The table holds the map under the flags that the run keeps; a sort can only be
pending while there is nothing to sort. -/
structure Tracks (cmp : HashFlags → K → K → Int) (keys : Set K) (iFlags : HashFlags)
    (pDefault : Option V) (t : BaseHash K V) (m : KeyMap K V) : Prop where
  sound : Sound cmp keys t
  idle : t.iFlags.resort = true → t.pPairs = []
  flags : { t.iFlags with resort := false } = { iFlags with resort := false }
  pDefault : t.pDefault = pDefault
  represents : Represents (cmp iFlags) keys t.pPairs m

variable {cmp : HashFlags → K → K → Int} {keys : Set K} {iFlags : HashFlags}
  {pDefault : Option V} {t : BaseHash K V} {m : KeyMap K V} {key : K} {value : V}
  (hbits : Settles cmp)

theorem Tracks.keepOrder (h : Tracks cmp keys iFlags pDefault t m) :
    t.iFlags.keepOrder = iFlags.keepOrder := by
  have hkeep := congrArg HashFlags.keepOrder h.flags
  exact hkeep

theorem Tracks.autoAddAccess (h : Tracks cmp keys iFlags pDefault t m) :
    t.iFlags.autoAddAccess = iFlags.autoAddAccess := by
  have haccess := congrArg HashFlags.autoAddAccess h.flags
  exact haccess

theorem modify_middle {α : Type*} (before after : List α) (a : α) (f : α → α) :
    (before ++ a :: after).modify before.length f = before ++ f a :: after := by
  induction before with
  | nil => rfl
  | cons b before ih => rw [cons_append, length_cons, modify_succ_cons, ih,
      cons_append]

theorem eraseIdx_middle {α : Type*} (before after : List α) (a : α) :
    (before ++ a :: after).eraseIdx before.length = before ++ after := by
  induction before with
  | nil => rfl
  | cons b before ih => rw [cons_append, length_cons, eraseIdx_cons_succ, ih,
      cons_append]

theorem insertIdx_eq_append {α : Type*} {l : List α} {n : Nat} (hn : n ≤ l.length) (a : α) :
    l.insertIdx n a = l.take n ++ a :: l.drop n := by
  induction l generalizing n with
  | nil =>
    obtain rfl := Nat.le_zero.mp hn
    rfl
  | cons b l ih =>
    cases n with
    | zero => rfl
    | succ n =>
      rw [insertIdx_succ_cons, ih (Nat.le_of_succ_le_succ hn), take_succ_cons,
        drop_succ_cons, cons_append]

include hbits

theorem Tracks.cmp_eq (h : Tracks cmp keys iFlags pDefault t m) : cmp t.iFlags = cmp iFlags := by
  rw [← hbits, h.flags, hbits]

theorem Tracks.settled (horder : OrdersKeys (cmp iFlags) keys)
    (h : Tracks cmp keys iFlags pDefault t m) :
    Tracks cmp keys iFlags pDefault (settled cmp t) m where
  sound := h.sound.settled hbits (h.cmp_eq hbits ▸ horder)
  idle := by
    rw [settled_iFlags]
    exact fun hresort => absurd hresort Bool.false_ne_true
  flags := by
    rw [settled_iFlags]
    exact h.flags
  pDefault := by
    rw [settled_pDefault]
    exact h.pDefault
  represents := by
    have hpairs : (HashPairs.settled cmp t).pPairs = t.pPairs := by
      rcases Bool.eq_false_or_eq_true t.iFlags.resort with hresort | hresort
      · have hperm := settled_pPairs cmp t
        rw [h.idle hresort] at hperm ⊢
        exact hperm.eq_nil
      · unfold HashPairs.settled
        rw [hresort, if_neg Bool.false_ne_true]
    rw [hpairs]
    exact h.represents

section

variable (hpre : PreordersKeys (cmp iFlags) keys) (h : Tracks cmp keys iFlags pDefault t m)

include hpre h

theorem Tracks.openPair (hresort : t.iFlags.resort = false) (hkey : key ∈ keys) {nPos : Nat}
    (hle : nPos ≤ t.nLen) (hbefore : ∀ a ∈ (inOrder t).take nPos, cmp t.iFlags a.1 key < 0)
    (hafter : ∀ a ∈ (inOrder t).drop nPos, 0 < cmp t.iFlags a.1 key) :
    Tracks cmp keys iFlags pDefault (hashOpenPair t nPos (key, value))
      (store (cmp iFlags) iFlags.keepOrder key value m) := by
  have hcmp := h.cmp_eq hbits
  have hcoherent := h.sound.coherent
  have hperm := hcoherent.inOrder_perm hresort
  have hflags := hashOpenPair_iFlags hcoherent nPos (key, value)
  have habsent : ∀ pair ∈ t.pPairs, cmp iFlags pair.1 key ≠ 0 := fun pair hmem =>
    hcmp ▸ absent_of_place hbefore hafter pair (hperm.mem_iff.mpr hmem)
  refine ⟨h.sound.openPair (hcmp.symm ▸ hpre.orders) hresort hkey hle hbefore hafter,
    ?_, ?_, ?_, ?_⟩
  · rw [hflags, hresort]
    exact fun hfalse => absurd hfalse Bool.false_ne_true
  · rw [hflags]
    exact h.flags
  · obtain ⟨nSize, -, heq⟩ := hashOpenPair_eq hcoherent nPos (key, value)
    rw [heq]
    split <;> exact h.pDefault
  · obtain ⟨nSize, -, heq⟩ := hashOpenPair_eq hcoherent nPos (key, value)
    rw [heq, h.keepOrder]
    cases hkeep : iFlags.keepOrder with
    | true =>
      have hrep := h.represents
      rw [← append_nil t.pPairs] at hrep
      refine hrep.store_new hpre ?_ hkey ?_ ?_
      · rw [append_nil]
        exact h.sound.keyed
      · rw [append_nil]
        exact habsent
      · rw [place, if_pos rfl, append_nil, map_append]
        rfl
    | false =>
      have hnone := hcoherent.layout.mpr (.inl (h.keepOrder.trans hkeep))
      rw [inOrder_none hnone, hcmp] at hbefore hafter
      have hrep := h.represents
      rw [← take_append_drop nPos t.pPairs] at hrep
      rw [insertIdx_eq_append hle]
      refine hrep.store_new hpre ?_ hkey ?_ ?_
      · rw [take_append_drop]
        exact h.sound.keyed
      · rw [take_append_drop]
        exact habsent
      · rw [place, if_neg Bool.false_ne_true, take_append_drop, ← insertIdx_eq_append hle,
          map_insertIdx]
        refine insertKey_eq ((length_map Prod.fst).symm ▸ hle) ?_ ?_
        · rw [← map_take]
          exact forall_mem_map.mpr hbefore
        · rw [← map_drop]
          exact forall_mem_map.mpr hafter

theorem Tracks.setValue (hresort : t.iFlags.resort = false) (hkey : key ∈ keys)
    {before after : List (K × V)} {pair : K × V} (hpairs : t.pPairs = before ++ pair :: after)
    (hzero : cmp t.iFlags pair.1 key = 0) :
    Tracks cmp keys iFlags pDefault { t with pPairs := before ++ (pair.1, value) :: after }
      (store (cmp iFlags) iFlags.keepOrder key value m) := by
  have hcmp := h.cmp_eq hbits
  have hkeyed := h.sound.keyed
  have hdistinct := h.sound.distinct
  have hrep := h.represents
  rw [hpairs] at hkeyed hdistinct hrep
  rw [hcmp] at hzero hdistinct
  refine ⟨h.sound.setValues ?_, ?_, h.flags, h.pDefault,
    hrep.store_found hpre hkeyed hdistinct hkey hzero⟩
  · rw [hpairs]
    simp
  · rw [hresort]
    exact fun hfalse => absurd hfalse Bool.false_ne_true

section

variable (hkey : key ∈ keys)

include hkey

theorem Tracks.find : ∃ s, Tracks cmp keys iFlags pDefault s m ∧ s.iFlags.resort = false ∧
      Located cmp (cmp iFlags) t s key (fun _ => (m.value key).isSome)
        (¬ (m.value key).isSome) := by
  have hs := h.settled hbits hpre.orders
  have hresort : (HashPairs.settled cmp t).iFlags.resort = false := by rw [settled_iFlags]
  refine ⟨HashPairs.settled cmp t, hs, hresort, ?_⟩
  unfold Located
  rw [hashFind_settled cmp t key]
  refine hs.sound.located (hs.cmp_eq hbits) hpre.orders hresort hkey (fun pair hmem hzero => ?_)
    (hs.represents.absent hkey)
  rw [hs.represents.isSome_iff hkey]
  exact ⟨pair, hmem, hzero⟩

theorem Tracks.add (value : V) : Tracks cmp keys iFlags pDefault (hashAdd cmp t key value)
      (store (cmp iFlags) iFlags.keepOrder key value m) := by
  obtain ⟨s, hs, hresort, ⟨before, pair, after, hfound, hpairs, hzero, -⟩ |
    ⟨nPos, hmissing, hle, hbefore, hafter, -, -⟩⟩ := h.find hbits hpre hkey
  · have hset : hashAdd cmp t key value =
        { s with pPairs := before ++ (pair.1, value) :: after } := by
      unfold hashAdd
      rw [hfound]
      dsimp only
      rw [hpairs, modify_middle]
    rw [hset]
    exact hs.setValue hbits hpre hresort hkey hpairs ((hs.cmp_eq hbits).symm ▸ hzero)
  · have hopen : hashAdd cmp t key value = hashOpenPair s nPos (key, value) := by
      unfold hashAdd
      rw [hmissing]
      rfl
    rw [hopen]
    exact hs.openPair hbits hpre hresort hkey hle hbefore hafter

theorem Tracks.addNew (value : V) : Tracks cmp keys iFlags pDefault (hashAddNew cmp t key value).2
      (storeNew (cmp iFlags) iFlags.keepOrder key value m) := by
  unfold hashAddNew storeNew
  obtain ⟨s, hs, hresort, ⟨before, pair, after, hfound, -, -, hsome⟩ |
    ⟨nPos, hmissing, hle, hbefore, hafter, -, hnone⟩⟩ := h.find hbits hpre hkey
  · rw [hfound, if_pos hsome]
    exact hs
  · rw [hmissing, if_neg hnone]
    exact hs.openPair hbits hpre hresort hkey hle hbefore hafter

theorem Tracks.access (nil : V) : Tracks cmp keys iFlags pDefault (hashAccess cmp nil t key).1
      (if iFlags.autoAddAccess then
        storeNew (cmp iFlags) iFlags.keepOrder key (pDefault.getD nil) m else m) := by
  unfold hashAccess hashValuePtr storeNew
  rw [h.autoAddAccess]
  obtain ⟨s, hs, hresort, ⟨before, pair, after, hfound, -, -, hsome⟩ |
    ⟨nPos, hmissing, hle, hbefore, hafter, -, hnone⟩⟩ := h.find hbits hpre hkey
  · rw [hfound, if_pos hsome, ite_self]
    exact hs
  · rw [hmissing, if_neg hnone]
    cases iFlags.autoAddAccess with
    | true =>
      obtain rfl := hs.pDefault
      exact hs.openPair hbits hpre hresort hkey hle hbefore hafter
    | false => exact hs

end

end

omit hbits in
theorem Tracks.delPair (h : Tracks cmp keys iFlags pDefault t m) (m' : KeyMap K V)
    {before after : List (K × V)} {pair : K × V} (hpairs : t.pPairs = before ++ pair :: after)
    (hrep : Represents (cmp iFlags) keys (before ++ after) m') :
    Tracks cmp keys iFlags pDefault (hashDelPair t before.length) m' := by
  have hlt : before.length < t.nLen := by
    rw [BaseHash.nLen, hpairs, length_append, length_cons]
    omega
  refine ⟨h.sound.delPair hlt, ?_, ?_, ?_, ?_⟩
  · rw [hashDelPair_iFlags]
    intro hresort
    rw [h.idle hresort] at hpairs
    exact absurd hpairs.symm (by simp)
  · rw [hashDelPair_iFlags]
    exact h.flags
  · unfold hashDelPair
    dsimp only
    split <;> exact h.pDefault
  · rw [hashDelPair_pPairs hlt, hpairs, eraseIdx_middle]
    exact hrep

section

variable (hpre : PreordersKeys (cmp iFlags) keys) (h : Tracks cmp keys iFlags pDefault t m)

include hpre h

theorem Tracks.del (hkey : key ∈ keys) :
    Tracks cmp keys iFlags pDefault (hashDel cmp t key).2 (erase (cmp iFlags) key m) := by
  unfold hashDel
  obtain ⟨s, hs, -, ⟨before, pair, after, hfound, hpairs, hzero, -⟩ |
    ⟨nPos, hmissing, -, -, -, habsent, -⟩⟩ := h.find hbits hpre hkey
  · rw [hfound]
    have hkeyed := hs.sound.keyed
    have hdistinct := hs.sound.distinct
    have hrep := hs.represents
    rw [hpairs] at hkeyed hdistinct hrep
    rw [hs.cmp_eq hbits] at hdistinct
    exact hs.delPair _ hpairs (hrep.erase_found hpre hkeyed hdistinct hkey hzero)
  · rw [hmissing]
    exact ⟨hs.sound, hs.idle, hs.flags, hs.pDefault,
      hs.represents.erase_absent hpre hs.sound.keyed hkey habsent⟩

theorem Tracks.delAt (nPos : Nat) : Tracks cmp keys iFlags pDefault (hashDelAt t nPos).2
      (if 0 < nPos then eraseAt (cmp iFlags) (nPos - 1) m else m) := by
  unfold hashDelAt
  split
  · rename_i hpos
    have hlt : nPos - 1 < t.pPairs.length := by
      have hle : nPos ≤ t.pPairs.length := hpos.2
      omega
    have hbefore : (t.pPairs.take (nPos - 1)).length = nPos - 1 := by
      rw [length_take, Nat.min_eq_left hlt.le]
    have hpairs : t.pPairs = t.pPairs.take (nPos - 1) ++ t.pPairs[nPos - 1] ::
        t.pPairs.drop (nPos - 1 + 1) := by
      rw [← drop_eq_getElem_cons hlt, take_append_drop]
    have hkeyed := h.sound.keyed
    have hdistinct := h.sound.distinct
    have hrep := h.represents
    rw [hpairs] at hkeyed hdistinct hrep
    rw [h.cmp_eq hbits] at hdistinct
    have herased := hrep.eraseAt hpre hkeyed hdistinct
    rw [if_pos hpos.1]
    have hdel := h.delPair _ hpairs herased
    rw [hbefore] at hdel
    exact hdel
  · rename_i hpos
    split
    · rename_i hpositive
      have hge : t.pPairs.length ≤ nPos - 1 := by
        by_contra hlt
        refine hpos ⟨hpositive, ?_⟩
        change nPos ≤ t.pPairs.length
        omega
      exact ⟨h.sound, h.idle, h.flags, h.pDefault, h.represents.eraseAt_ge hge⟩
    · exact h

end

omit hbits in
theorem Tracks.clear (h : Tracks cmp keys iFlags pDefault t m) :
    Tracks cmp keys iFlags pDefault (hashClear t) empty := by
  obtain ⟨hcoherent, hnil, hflags⟩ := h.sound.coherent.clear
  refine ⟨sound_of_empty hcoherent hnil, fun _ => hnil, ?_, ?_, ?_⟩
  · rw [hflags]
    exact h.flags
  · unfold hashClear
    split <;> exact h.pDefault
  · rw [hnil]
    exact represents_empty

omit hbits in
theorem Tracks.preallocate (h : Tracks cmp keys iFlags pDefault t m) (nNewSize : Nat) :
    Tracks cmp keys iFlags pDefault (hashResize t nNewSize) m := by
  have hsound := h.sound.resize nNewSize
  obtain ⟨nSize, pnPos, heq, -, -, -⟩ := hashResize_eq h.sound.coherent nNewSize
  rw [heq] at hsound ⊢
  exact ⟨hsound, h.idle, h.flags, h.pDefault, h.represents⟩

section

variable (hpre : PreordersKeys (cmp iFlags) keys) (h : Tracks cmp keys iFlags pDefault t m)
  (nilPair : K × V)

include hpre h nilPair

theorem Tracks.sort (hsome : t.pnPos.isSome → t.nLen ≠ 0) : ∃ t', hashSort nilPair cmp t = .ok t' ∧
      Tracks cmp keys iFlags pDefault t' (Library.OrderedMap.sort (cmp iFlags) m) := by
  have hs := h.settled hbits hpre.orders
  have hresort : (HashPairs.settled cmp t).iFlags.resort = false := by rw [settled_iFlags]
  obtain ⟨t', hsort, hcoherent, hpairs, hinOrder, hflags, hdefault⟩ :=
    hashSort_eq nilPair cmp h.sound.coherent hsome
  have hcmp := hs.cmp_eq hbits
  have hcmp' : cmp t'.iFlags = cmp iFlags := by rw [hflags, hbits, h.cmp_eq hbits]
  have hperm := hs.sound.coherent.inOrder_perm hresort
  have hkeyed := hs.sound.keyed
  have hdistinct := hs.sound.distinct
  have hsorted := hs.sound.sorted hresort
  rw [hcmp] at hdistinct hsorted
  refine ⟨t', hsort, ⟨hcoherent, ?_, ?_, fun _ => ?_⟩, ?_, ?_, ?_, ?_⟩
  · rw [hpairs]
    exact hkeyed.perm hperm
  · rw [hpairs, hcmp']
    exact hdistinct.perm hperm
  · rw [hinOrder, hpairs, hcmp']
    exact hsorted
  · rw [hflags]
    exact fun hfalse => absurd hfalse Bool.false_ne_true
  · rw [hflags]
    exact h.flags
  · rw [hdefault]
    exact h.pDefault
  · rw [hpairs]
    exact hs.represents.sort hpre hkeyed hdistinct hperm hsorted

theorem Tracks.update (u : Update K V) (huses : u.Uses keys)
    (hsort : u = .sort → t.pnPos.isSome → t.nLen ≠ 0) : ∃ t', update cmp nilPair t u = .ok t' ∧
      Tracks cmp keys iFlags pDefault t'
        (u.apply (cmp iFlags) iFlags (pDefault.getD nilPair.2) m) := by
  cases u with
  | add key value => exact ⟨_, rfl, h.add hbits hpre huses value⟩
  | addNew key value => exact ⟨_, rfl, h.addNew hbits hpre huses value⟩
  | access key => exact ⟨_, rfl, h.access hbits hpre huses nilPair.2⟩
  | del key => exact ⟨_, rfl, h.del hbits hpre huses⟩
  | delAt nPos => exact ⟨_, rfl, h.delAt hbits hpre nPos⟩
  | clear => exact ⟨_, rfl, h.clear⟩
  | preallocate nNewSize => exact ⟨_, rfl, h.preallocate nNewSize⟩
  | sort => exact h.sort hbits hpre nilPair (hsort rfl)

end

end Runs

section Refinement

variable (cmp : HashFlags → K → K → Int) (nilPair : K × V)

/-- The value that an access finds under a key, without adding it. -/
def hashGet (t : BaseHash K V) (key : K) : Option V :=
  let (t, position) := hashValuePtr cmp nilPair.2 t key false
  position.bind fun nPos => t.pPairs[nPos]?.map Prod.snd

/-- What a table promises of the ordered map that it stands for. -/
structure Refines (keys : Set K) (t : BaseHash K V) (m : KeyMap K V) : Prop where
  positions : ∀ nPos, (hashPairAt t nPos).map Prod.fst =
    if 0 < nPos then m.keys[nPos - 1]? else none
  values : ∀ nPos pair, hashPairAt t nPos = some pair →
    m.value pair.1 = some pair.2
  nLen : t.nLen = m.keys.length
  lookup : ∀ key ∈ keys, hashGet cmp nilPair t key = m.value key
  distinct : m.keys.Pairwise fun a b => cmp t.iFlags a b ≠ 0
  sorted : t.iFlags.keepOrder = false → m.keys.Pairwise fun a b => cmp t.iFlags a b < 0
  index : ∀ pnPos, t.pnPos = some pnPos → pnPos.Perm (range t.nLen) ∧
    Increases (cmp t.iFlags) (pnPos.filterMap fun position => t.pPairs[position]?)

variable {cmp nilPair} {keys : Set K} {iFlags : HashFlags} {pDefault : Option V}
  {t : BaseHash K V} {m : KeyMap K V}

theorem hashPairAt_succ (t : BaseHash K V) (n : Nat) : hashPairAt t (n + 1) = t.pPairs[n]? := by
  unfold hashPairAt
  split
  · rfl
  · rename_i hlt
    refine (getElem?_eq_none ?_).symm
    change t.nLen ≤ n
    omega

theorem Tracks.refines (hbits : Settles cmp) (hpre : PreordersKeys (cmp iFlags) keys)
    (h : Tracks cmp keys iFlags pDefault t m) : Refines cmp nilPair keys t m := by
  have hdistinct := h.sound.distinct
  rw [distinct_iff, h.represents.keys] at hdistinct
  have hempty : t.iFlags.resort = true → m.keys = [] := fun hresort => by
    rw [← h.represents.keys, h.idle hresort]
    rfl
  refine ⟨?_, ?_, ?_, ?_, ?_, ?_, ?_⟩
  · intro nPos
    cases nPos with
    | zero => rfl
    | succ n =>
      rw [hashPairAt_succ, ← getElem?_map, h.represents.keys, if_pos (Nat.succ_pos n)]
      rfl
  · intro nPos pair hpair
    cases nPos with
    | zero => cases hpair
    | succ n =>
      rw [hashPairAt_succ] at hpair
      have hmem := mem_of_getElem? hpair
      have hkey := h.sound.keyed pair hmem
      exact (h.represents.value pair.1 hkey pair.2).mpr
        ⟨pair, hmem, hpre.orders.equal_refl hkey, rfl⟩
  · rw [← h.represents.keys, length_map]
    rfl
  · intro key hkey
    unfold hashGet hashValuePtr
    obtain ⟨s, hs, hresort, ⟨before, pair, after, hfound, hpairs, hzero, -⟩ |
      ⟨nPos, hmissing, -, -, -, -, hnone⟩⟩ := h.find hbits hpre hkey
    · rw [hfound]
      have hvalue := (hs.represents.value key hkey pair.2).mpr
        ⟨pair, by rw [hpairs]; simp, hzero, rfl⟩
      dsimp only
      rw [hvalue, bind_some, hpairs, getElem?_append_right (Nat.le_refl _), Nat.sub_self]
      rfl
    · rw [hmissing]
      exact (not_isSome_iff_eq_none.mp hnone).symm
  · exact hdistinct.imp fun hne => hne.1
  · intro hkeep
    rcases Bool.eq_false_or_eq_true t.iFlags.resort with hresort | hresort
    · rw [hempty hresort]
      exact List.Pairwise.nil
    · have hsorted := h.sound.sorted hresort
      rw [inOrder_none (h.sound.coherent.layout.mpr (.inl hkeep)), increases_iff,
        h.represents.keys] at hsorted
      exact hsorted
  · intro pnPos hpos
    rcases Bool.eq_false_or_eq_true t.iFlags.resort with hresort | hresort
    · have hslots := h.sound.coherent.slots pnPos hpos
      rw [BaseHash.nLen, h.idle hresort] at hslots ⊢
      rw [length_eq_zero_iff.mp hslots]
      exact ⟨Perm.refl _, List.Pairwise.nil⟩
    · have horder := keyOrder_some hpos
      have hsorted := h.sound.sorted hresort
      unfold inOrder at hsorted
      rw [horder] at hsorted
      exact ⟨horder ▸ h.sound.coherent.index hresort, hsorted⟩

end Refinement

section Program

variable {D : Type} (env : KeyEnv D)

/-- `hb_hashNew` with its flags and its default value already set. -/
def hashStart (iFlags : HashFlags) (pDefault : Option V) : BaseHash (KeyItem D) V :=
  { hashNew with iFlags, pDefault }

def run (nilPair : KeyItem D × V) (iFlags : HashFlags) (pDefault : Option V)
    (updates : List (Update (KeyItem D) V)) : Except HashFault (BaseHash (KeyItem D) V) :=
  updates.foldlM (update (hashItemCmp env) nilPair) (hashStart iFlags pDefault)

def mapRun (nil : V) (iFlags : HashFlags) (pDefault : Option V)
    (updates : List (Update (KeyItem D) V)) : KeyMap (KeyItem D) V :=
  updates.foldl (fun m u => u.apply (hashItemCmp env iFlags) iFlags (pDefault.getD nil) m) empty

/-- No `HB_HSORT` meets an empty hash that holds an index. -/
def SortsFilled (nilPair : KeyItem D × V) (iFlags : HashFlags) (pDefault : Option V)
    (updates : List (Update (KeyItem D) V)) : Prop :=
  ∀ before after, updates = before ++ .sort :: after →
    ∀ t, run env nilPair iFlags pDefault before = .ok t → t.pnPos.isSome → t.nLen ≠ 0

variable {env} {nilPair : KeyItem D × V} {iFlags : HashFlags} {pDefault : Option V}
  {updates : List (Update (KeyItem D) V)} {keys : Set (KeyItem D)}

theorem hashItemCmp_settles : Settles (hashItemCmp env) :=
  fun _ => hashItemCmp_congr env rfl rfl

theorem hashStart_tracks :
    Tracks (hashItemCmp env) keys iFlags pDefault
      (hashStart iFlags pDefault : BaseHash (KeyItem D) V)
      empty where
  sound := sound_of_empty ⟨Nat.le_refl 0, ⟨fun _ => .inr rfl, fun _ => rfl⟩,
    fun _ hpos => absurd hpos (by simp [hashStart, hashNew]), fun _ => Perm.refl _⟩ rfl
  idle := fun _ => rfl
  flags := rfl
  pDefault := rfl
  represents := represents_empty

theorem run_tracks (hpre : PreordersKeys (hashItemCmp env iFlags) keys)
    (huses : ∀ u ∈ updates, u.Uses keys)
    (hsorts : SortsFilled env nilPair iFlags pDefault updates) :
    ∃ t, run env nilPair iFlags pDefault updates = .ok t ∧
      Tracks (hashItemCmp env) keys iFlags pDefault t
        (mapRun env nilPair.2 iFlags pDefault updates) := by
  induction updates using reverseRecOn with
  | nil => exact ⟨_, rfl, hashStart_tracks⟩
  | append_singleton updates u ih =>
    have hearlier : SortsFilled env nilPair iFlags pDefault updates := by
      rintro before after rfl
      exact hsorts before (after ++ [u]) (by simp)
    obtain ⟨t, hrun, htracks⟩ := ih (fun u hu => huses u (mem_append_left _ hu)) hearlier
    have hsort : u = .sort → t.pnPos.isSome → t.nLen ≠ 0 := by
      rintro rfl
      exact hsorts updates [] rfl t hrun
    obtain ⟨t', hstep, htracks'⟩ := htracks.update hashItemCmp_settles hpre nilPair u
      (huses u (by simp)) hsort
    refine ⟨t', ?_, ?_⟩
    · unfold run at hrun ⊢
      rw [foldlM_append, hrun]
      change (update (hashItemCmp env) nilPair t u >>= pure) = _
      rw [hstep]
      rfl
    · unfold mapRun at htracks' ⊢
      rw [foldl_append]
      exact htracks'

theorem hashSort_empty {cmp : HashFlags → KeyItem D → KeyItem D → Int}
    {t : BaseHash (KeyItem D) V} (hindex : t.pnPos.isSome) (hempty : t.nLen = 0) :
    hashSort nilPair cmp t = .error .xgrabNullSize := by
  rw [← settled_isSome cmp] at hindex
  rw [← settled_nLen cmp] at hempty
  obtain ⟨pnPos, hpos⟩ := isSome_iff_exists.mp hindex
  rw [hashSort_settled, hpos]
  exact if_pos hempty

theorem sortsFilled_of_run {t : BaseHash (KeyItem D) V}
    (hrun : run env nilPair iFlags pDefault updates = .ok t) :
    SortsFilled env nilPair iFlags pDefault updates := by
  rintro before after rfl s hbefore hindex hempty
  unfold run at hrun hbefore
  rw [foldlM_append, hbefore] at hrun
  change (do
    let s' ← hashSort nilPair (hashItemCmp env) s
    after.foldlM (update (hashItemCmp env) nilPair) s') = _ at hrun
  rw [hashSort_empty hindex hempty] at hrun
  cases hrun

/-- A hash is an ordered map, over every run of its operations, exactly when no
sort meets an empty hash that holds an index. -/
theorem hash_refines_map (hpre : PreordersKeys (hashItemCmp env iFlags) keys)
    (huses : ∀ u ∈ updates, u.Uses keys) :
    (∃ t, run env nilPair iFlags pDefault updates = .ok t ∧
      Refines (hashItemCmp env) nilPair keys t (mapRun env nilPair.2 iFlags pDefault updates)) ↔
      SortsFilled env nilPair iFlags pDefault updates := by
  constructor
  · rintro ⟨t, hrun, -⟩
    exact sortsFilled_of_run hrun
  · intro hsorts
    obtain ⟨t, hrun, htracks⟩ := run_tracks hpre huses hsorts
    exact ⟨t, hrun, htracks.refines hashItemCmp_settles hpre⟩

end Program

/-- Byte order for strings, and integers in the place of doubles. -/
def plainEnv : KeyEnv Int where
  vmCDP := none
  less := (· < ·)
  ofMaxInt := id

theorem plainEnv_orders : plainEnv.Orders where
  asymm := fun _ _ hab => decide_eq_false (Int.lt_asymm (of_decide_eq_true hab))
  trans := fun _ _ _ hab hbc =>
    decide_eq_true (Int.lt_trans (of_decide_eq_true hab) (of_decide_eq_true hbc))
  int_left := fun _ _ _ hab hbc => decide_eq_true (Int.lt_of_le_of_lt hab (of_decide_eq_true hbc))
  int_right := fun _ _ _ hab hca => decide_eq_true (Int.lt_of_lt_of_le (of_decide_eq_true hca) hab)
  int_both := fun _ _ hab => of_decide_eq_true hab
  collation := fun _ hsome => nomatch hsome

def numbers : Set (KeyItem Int) := {key | ∃ value, key = .numInt value}

theorem numbers_preordered (iFlags : HashFlags) :
    PreordersKeys (hashItemCmp plainEnv iFlags) numbers where
  swap := by
    rintro _ ⟨a, rfl⟩ _ ⟨b, rfl⟩
    simp only [hashItemCmp, threeWay, decide_eq_true_eq]
    split <;> split <;> simp
    omega
  trans := by
    rintro _ ⟨a, rfl⟩ _ ⟨b, rfl⟩ _ ⟨c, rfl⟩
    simp only [hashItemCmp, threeWay, decide_eq_true_eq]
    intro hab hbc
    split_ifs at hab hbc ⊢ <;> omega

def sampleUpdates : List (Update (KeyItem Int) Nat) :=
  [.add (.numInt 7) 1, .addNew (.numInt 3) 2, .access (.numInt 5), .sort,
    .del (.numInt 7), .delAt 1]

theorem sample_refines_map :
    ∃ t, run plainEnv (.nil, 0) hashFlagDefault none sampleUpdates = .ok t ∧
      Refines (hashItemCmp plainEnv) (.nil, 0) numbers t
        (mapRun plainEnv 0 hashFlagDefault none sampleUpdates) := by
  refine (hash_refines_map (numbers_preordered _)
    (by simp [sampleUpdates, Update.Uses, numbers])).mpr ?_
  have hruns : (run plainEnv (.nil, 0) hashFlagDefault none sampleUpdates).isOk = true := by
    decide +kernel
  cases hrun : run plainEnv (.nil, 0) hashFlagDefault none sampleUpdates with
  | ok t => exact sortsFilled_of_run hrun
  | error fault =>
    rw [hrun] at hruns
    cases hruns

/-- `HB_HSORT( HB_HALLOCATE( { => }, 10 ) )`. -/
theorem preallocated_sort_aborts :
    PreordersKeys (hashItemCmp plainEnv hashFlagDefault) numbers ∧
      ¬ ∃ t, run plainEnv (.nil, 0) hashFlagDefault none [.preallocate 10, .sort] = .ok t ∧
        Refines (hashItemCmp plainEnv) (.nil, 0) numbers t
          (mapRun plainEnv 0 hashFlagDefault none [.preallocate 10, .sort]) := by
  refine ⟨numbers_preordered _, ?_⟩
  rintro ⟨t, hrun, -⟩
  cases hrun

end Harbour.Vm.HashMap
