import Mtbl.Block.Iter

/-! What a well-formed block stores. A block is a list of slots, each an entry with the length it
shares with the key before it, followed by a restart array that names some of the slots. The
layout says nothing about the order of the keys. -/
namespace Mtbl
open CRun

structure Slot where
  shared : ℕ
  entry : Entry

def Slot.bytes (s : Slot) : Bytes := encodeEntry s.shared s.entry

def regionBytes (slots : List Slot) : Bytes := slots.flatMap Slot.bytes

/-- The offset of the `i`-th slot; for `i` the number of slots, the end of the region. -/
def slotOffset (slots : List Slot) (i : ℕ) : ℕ := (regionBytes (slots.take i)).length

/-- Each slot shares with the key before it no more than both keys have in common. -/
def SharedOk : Bytes → List Slot → Prop
  | _,[] => True
  | prev,s::slots => s.shared ≤ prev.length ∧ s.shared ≤ s.entry.key.length ∧
      prev.take s.shared = s.entry.key.take s.shared ∧ SharedOk s.entry.key slots

/-- The lengths the format stores in 32 bits. -/
def Entry.Small (e : Entry) : Prop := e.key.length < 2^32 ∧ e.val.length < 2^32

instance (e : Entry) : Decidable e.Small := inferInstanceAs (Decidable (_ ∧ _))

/-- The three lengths in front of an entry take 32 bits each. A long key is stored whole if it shares
enough with the key before it. -/
def Slot.Fits (s : Slot) : Prop :=
  s.shared < 2^32 ∧ s.entry.key.length-s.shared < 2^32 ∧ s.entry.val.length < 2^32

theorem Entry.Small.fits {e : Entry} (h : e.Small) {shared : ℕ} (hle : shared ≤ e.key.length) :
    Slot.Fits ⟨shared,e⟩ :=
  ⟨hle.trans_lt h.1,(Nat.sub_le _ _).trans_lt h.1,h.2⟩

/-! ### Decoding one entry -/

theorem readByte_append_add (pre s : Bytes) (i : ℕ) :
    readByte (pre++s) (pre.length+i) = readByte s i := by
  unfold readByte
  rw [List.getElem?_append_right (by omega),Nat.add_sub_cancel_left]

@[simp] theorem readByte_cons_zero (b : UInt8) (s : Bytes) : readByte (b::s) 0 = .ok b.toNat := rfl

@[simp] theorem readByte_cons_succ (b : UInt8) (s : Bytes) (i : ℕ) :
    readByte (b::s) (i+1) = readByte s i := by simp [readByte]

theorem readByte_of_lt (s : Bytes) (i : ℕ) (h : i < s.length) : ∃ n, readByte s i = .ok n :=
  ⟨s[i].toNat,by simp [readByte,h]⟩

/-- The header's three varints. -/
def headerBytes (shared nonShared valueLength : ℕ) : Bytes :=
  mtblVarintEncode32 shared++mtblVarintEncode32 nonShared++mtblVarintEncode32 valueLength

theorem headerBytes_length {a b c : ℕ} (ha : a < 2^32) (hb : b < 2^32) (hc : c < 2^32) :
    3 ≤ (headerBytes a b c).length ∧ (headerBytes a b c).length ≤ 15 := by
  have h1 := mtblVarintEncode32_length ha
  have h2 := mtblVarintEncode32_length hb
  have h3 := mtblVarintEncode32_length hc
  simp only [headerBytes,List.length_append]
  omega

theorem headerBytes_mod (a b c : ℕ) :
    headerBytes (a%2^32) (b%2^32) (c%2^32) = headerBytes a b c := by
  simp only [headerBytes,mtblVarintEncode32,Nat.mod_mod]

theorem encodeEntry_eq (shared : ℕ) (e : Entry) :
    encodeEntry shared e = headerBytes shared (e.key.length-shared) e.val.length++
      (e.key.drop shared++e.val) := by
  simp [encodeEntry,headerBytes]

theorem encodeEntry_length (shared : ℕ) (e : Entry) :
    (encodeEntry shared e).length = (headerBytes shared (e.key.length-shared) e.val.length).length+
      (e.key.length-shared)+e.val.length := by
  simp only [encodeEntry_eq,List.length_append,List.length_drop]
  omega

/-- An entry takes up room, whatever its lengths are. -/
theorem encodeEntry_pos (shared : ℕ) (e : Entry) : 3 ≤ (encodeEntry shared e).length := by
  have hpos := Nat.two_pow_pos 32
  have hheader := (headerBytes_length (Nat.mod_lt shared hpos)
    (Nat.mod_lt (e.key.length-shared) hpos) (Nat.mod_lt e.val.length hpos)).1
  rw [headerBytes_mod] at hheader
  rw [encodeEntry_length]
  omega

/-- The three leading bytes are below 128 together only if each varint is one byte. -/
theorem headerBytes_fast_or_slow {a b c : ℕ} (ha : a < 2^32) (hb : b < 2^32) (hc : c < 2^32)
    (rest : Bytes) :
    (a < 128 ∧ b < 128 ∧ c < 128 ∧
      headerBytes a b c = [UInt8.ofNat a,UInt8.ofNat b,UInt8.ofNat c]) ∨
    ∃ x y z, readByte (headerBytes a b c++rest) 0 = .ok x ∧
      readByte (headerBytes a b c++rest) 1 = .ok y ∧
      readByte (headerBytes a b c++rest) 2 = .ok z ∧ 128 ≤ (x ||| y ||| z) := by
  have hlen := (headerBytes_length ha hb hc).1
  have hread : ∀ i < 3, ∃ n, readByte (headerBytes a b c++rest) i = .ok n := by
    intro i hi
    exact readByte_of_lt _ i (by rw [List.length_append]; omega)
  obtain ⟨x,hx⟩ := hread 0 (by omega)
  obtain ⟨y,hy⟩ := hread 1 (by omega)
  obtain ⟨z,hz⟩ := hread 2 (by omega)
  rcases mtblVarintEncode32_head ha with ⟨ha',ea⟩ | ⟨p,ps,-,hp,ea⟩
  · rcases mtblVarintEncode32_head hb with ⟨hb',eb⟩ | ⟨q,qs,-,hq,eb⟩
    · rcases mtblVarintEncode32_head hc with ⟨hc',ec⟩ | ⟨r,rs,-,hr,ec⟩
      · exact .inl ⟨ha',hb',hc',by simp [headerBytes,ea,eb,ec]⟩
      · refine .inr ⟨x,y,z,hx,hy,hz,?_⟩
        have h : z = r.toNat := by
          simpa [headerBytes,ea,eb,ec] using hz.symm
        exact (h ▸ hr).trans Nat.right_le_or
    · refine .inr ⟨x,y,z,hx,hy,hz,?_⟩
      have h : y = q.toNat := by
        simpa [headerBytes,ea,eb] using hy.symm
      exact (h ▸ hq).trans (Nat.right_le_or.trans Nat.left_le_or)
  · refine .inr ⟨x,y,z,hx,hy,hz,?_⟩
    have h : x = p.toNat := by
      simpa [headerBytes,ea] using hx.symm
    exact (h ▸ hp).trans (Nat.left_le_or.trans Nat.left_le_or)

/-- Both paths of `decode_entry` read back the header and stop at the key suffix. -/
theorem decodeEntry_headerBytes (pre rest : Bytes) {a b c : ℕ} (limit : ℕ) (ha : a < 2^32)
    (hb : b < 2^32) (hc : c < 2^32)
    (hlimit : pre.length+(headerBytes a b c).length+b+c ≤ limit) :
    decodeEntry (pre++(headerBytes a b c++rest)) pre.length limit =
      .ok (some (pre.length+(headerBytes a b c).length,a,b,c)) := by
  have hsum : (b+c)%2^32 ≤ b+c := Nat.mod_le _ _
  have hlen := (headerBytes_length ha hb hc).1
  have h0 := readByte_append_add pre (headerBytes a b c++rest) 0
  have h1 := readByte_append_add pre (headerBytes a b c++rest) 1
  have h2 := readByte_append_add pre (headerBytes a b c++rest) 2
  rw [Nat.add_zero] at h0
  unfold decodeEntry
  rw [if_neg (by omega)]
  rcases headerBytes_fast_or_slow ha hb hc rest with ⟨ha',hb',hc',e⟩ | ⟨x,y,z,hx,hy,hz,hor⟩
  · have hla : (UInt8.ofNat a).toNat = a := by rw [UInt8.toNat_ofNat']; omega
    have hlb : (UInt8.ofNat b).toNat = b := by rw [UInt8.toNat_ofNat']; omega
    have hlc : (UInt8.ofNat c).toNat = c := by rw [UInt8.toNat_ofNat']; omega
    have hor : (a ||| b ||| c) < 2^7 := Nat.or_lt_two_pow (Nat.or_lt_two_pow ha' hb') hc'
    have hl : (headerBytes a b c).length = 3 := by rw [e]; rfl
    have hfits : ¬ limit-(pre.length+3) < (b+c)%2^32 := by omega
    simp only [h0,h1,h2]
    simp only [e,List.cons_append,readByte_cons_zero,readByte_cons_succ,ok_bind,hla,hlb,hlc,
      if_pos (show (a ||| b ||| c) < 128 from hor),check_of hfits,pure_eq_ok,List.length_cons,
      List.length_nil]
  · have d1 : (pre++(headerBytes a b c++rest)).drop pre.length = mtblVarintEncode32 a++
        (mtblVarintEncode32 b++(mtblVarintEncode32 c++rest)) := by
      simp [headerBytes]
    have d2 : (pre++(headerBytes a b c++rest)).drop
        (pre.length+(mtblVarintEncode32 a).length) =
        mtblVarintEncode32 b++(mtblVarintEncode32 c++rest) := by
      rw [← List.drop_drop,d1,List.drop_left]
    have d3 : (pre++(headerBytes a b c++rest)).drop
        (pre.length+(mtblVarintEncode32 a).length+(mtblVarintEncode32 b).length) =
        mtblVarintEncode32 c++rest := by
      rw [← List.drop_drop,d2,List.drop_left]
    have hl : (headerBytes a b c).length = (mtblVarintEncode32 a).length+
        (mtblVarintEncode32 b).length+(mtblVarintEncode32 c).length := by
      simp [headerBytes,Nat.add_assoc]
    have hend : pre.length+(mtblVarintEncode32 a).length+(mtblVarintEncode32 b).length+
        (mtblVarintEncode32 c).length = pre.length+(headerBytes a b c).length := by omega
    have hle : pre.length+(headerBytes a b c).length ≤ limit := by omega
    have hfits : ¬ limit-(pre.length+(headerBytes a b c).length) < (b+c)%2^32 := by omega
    simp only [h0,h1,h2,hx,hy,hz,ok_bind,if_neg (show ¬ (x ||| y ||| z) < 128 by omega),d1,
      mtblVarintDecode32_encode32 ha,d2,mtblVarintDecode32_encode32 hb,d3,
      mtblVarintDecode32_encode32 hc,hend,check_of hle,check_of hfits,pure_eq_ok]

/-! ### Offsets of slots -/

theorem Slot.bytes_length_pos {s : Slot} (hs : s.Fits) : 0 < s.bytes.length := by
  have h := (headerBytes_length hs.1 hs.2.1 hs.2.2).1
  rw [Slot.bytes,encodeEntry_length]
  omega

theorem regionBytes_split {slots : List Slot} {i : ℕ} {s : Slot} (h : slots[i]? = some s) :
    regionBytes slots = regionBytes (slots.take i)++(s.bytes++regionBytes (slots.drop (i+1))) := by
  obtain ⟨hi,rfl⟩ := List.getElem?_eq_some_iff.mp h
  have hsplit : slots = slots.take i++slots[i]::slots.drop (i+1) := by
    rw [List.getElem_cons_drop,List.take_append_drop]
  conv_lhs => rw [hsplit]
  simp only [regionBytes,List.flatMap_append,List.flatMap_cons]

@[simp] theorem slotOffset_zero (slots : List Slot) : slotOffset slots 0 = 0 := rfl

theorem slotOffset_length (slots : List Slot) :
    slotOffset slots slots.length = (regionBytes slots).length := by simp [slotOffset]

theorem slotOffset_succ {slots : List Slot} {i : ℕ} {s : Slot} (h : slots[i]? = some s) :
    slotOffset slots (i+1) = slotOffset slots i+s.bytes.length := by
  simp only [slotOffset,List.take_add_one,h,Option.toList_some,regionBytes,List.flatMap_append,
    List.flatMap_singleton,List.length_append]

/-- The key in front of the `i`-th slot. -/
def keyBefore (prev : Bytes) (slots : List Slot) : ℕ → Bytes
  | 0 => prev
  | i+1 => match slots[i]? with
    | some s => s.entry.key
    | none => []

theorem SharedOk.get {prev : Bytes} {slots : List Slot} (h : SharedOk prev slots) {i : ℕ} {s : Slot}
    (hs : slots[i]? = some s) :
    s.shared ≤ (keyBefore prev slots i).length ∧ s.shared ≤ s.entry.key.length ∧
      (keyBefore prev slots i).take s.shared = s.entry.key.take s.shared := by
  induction slots generalizing prev i with
  | nil => simp at hs
  | cons t slots ih =>
    obtain ⟨h1,h2,h3,h4⟩ := h
    cases i with
    | zero =>
      obtain rfl : t = s := by simpa using hs
      exact ⟨h1,h2,h3⟩
    | succ i =>
      have hh := ih h4 (i := i) (by simpa using hs)
      cases i with
      | zero => simpa [keyBefore] using hh
      | succ i => simpa [keyBefore] using hh

/-! ### Blocks -/

/-- The memory at `data` holds a block with these slots: its region, of length `restarts`, comes
first, and restart point `j` is the offset of slot `rs[j]`, which shares nothing with the key
before it. -/
structure Slotted (data : Bytes) (restarts n : ℕ) (slots : List Slot) (rs : List ℕ) : Prop where
  region : ∃ tail, data = regionBytes slots++tail
  restarts_eq : restarts = (regionBytes slots).length
  sharedOk : SharedOk [] slots
  fits : ∀ s ∈ slots, s.Fits
  bounded : restarts < 2^63
  count_eq : n = rs.length
  count_pos : 0 < n
  count_lt : n < 2^32
  first : rs[0]? = some 0
  increasing : rs.Pairwise (· < ·)
  inside : ∀ r ∈ rs, r = 0 ∨ r < slots.length
  restart_shared : ∀ r ∈ rs, ∀ s, slots[r]? = some s → s.shared = 0
  point : ∀ bi : BlockIter, bi.data = data → bi.restarts = restarts → bi.numRestarts = n →
    ∀ j r, rs[j]? = some r → getRestartPoint bi j = .ok (slotOffset slots r)

/-- With fewer than `2^31` restart points no sum of two of their indexes wraps. -/
structure Stores (data : Bytes) (restarts n : ℕ) (slots : List Slot) (rs : List ℕ) : Prop
    extends Slotted data restarts n slots rs where
  few : n < 2^31

section
variable {data : Bytes} {restarts n : ℕ} {slots : List Slot} {rs : List ℕ}

theorem Slotted.get (h : Slotted data restarts n slots rs) {i : ℕ} {s : Slot}
    (hs : slots[i]? = some s) : s.Fits ∧ s.shared ≤ (keyBefore [] slots i).length ∧
      s.shared ≤ s.entry.key.length ∧
      (keyBefore [] slots i).take s.shared = s.entry.key.take s.shared :=
  ⟨h.fits s (List.mem_of_getElem? hs),h.sharedOk.get hs⟩

theorem Slotted.offset_succ_gt (h : Slotted data restarts n slots rs) {i : ℕ} {s : Slot}
    (hs : slots[i]? = some s) : slotOffset slots i < slotOffset slots (i+1) := by
  obtain ⟨hfits,-⟩ := h.get hs
  rw [slotOffset_succ hs]
  have := Slot.bytes_length_pos hfits
  omega

/-- Offsets of slots grow with their index. -/
theorem Slotted.offset_lt (h : Slotted data restarts n slots rs) {i j : ℕ} (hij : i < j)
    (hj : j ≤ slots.length) : slotOffset slots i < slotOffset slots j := by
  induction j with
  | zero => omega
  | succ j ih =>
    have hs : slots[j]? = some slots[j] := List.getElem?_eq_getElem (by omega)
    have hstep := h.offset_succ_gt hs
    rcases Nat.lt_or_ge i j with hlt | hge
    · exact (ih hlt (by omega)).trans hstep
    · obtain rfl : i = j := by omega
      exact hstep

theorem Slotted.offset_lt_iff (h : Slotted data restarts n slots rs) {i j : ℕ}
    (hi : i ≤ slots.length) (hj : j ≤ slots.length) :
    slotOffset slots i < slotOffset slots j ↔ i < j := by
  constructor
  · intro hlt
    by_contra hge
    rcases Nat.lt_or_ge j i with hji | hji
    · have := h.offset_lt hji hi
      omega
    · obtain rfl : i = j := by omega
      omega
  · exact fun hij => h.offset_lt hij hj

theorem Slotted.offset_length (h : Slotted data restarts n slots rs) :
    slotOffset slots slots.length = restarts := by rw [h.restarts_eq,slotOffset_length]

theorem Slotted.offset_le (h : Slotted data restarts n slots rs) {i : ℕ} (hi : i ≤ slots.length) :
    slotOffset slots i ≤ restarts := by
  rw [← h.offset_length]
  rcases Nat.lt_or_ge i slots.length with hlt | hge
  · exact (h.offset_lt hlt le_rfl).le
  · rw [show i = slots.length by omega]

theorem Slotted.length_le (h : Slotted data restarts n slots rs) : slots.length ≤ restarts := by
  have hle : ∀ i ≤ slots.length, i ≤ slotOffset slots i := by
    intro i
    induction i with
    | zero => simp
    | succ i ih =>
      intro hi
      have h1 := ih (by omega)
      have h2 := h.offset_lt (show i < i+1 by omega) hi
      omega
  rw [← h.offset_length]
  exact hle _ le_rfl

/-- `decode_entry` at a slot: the header's values, and the suffix and value bytes behind it. -/
theorem Slotted.decode (h : Slotted data restarts n slots rs) {i : ℕ} {s : Slot}
    (hs : slots[i]? = some s) :
    ∃ p, decodeEntry data (slotOffset slots i) restarts =
        .ok (some (p,s.shared,s.entry.key.length-s.shared,s.entry.val.length)) ∧
      (∃ pre rest, data = pre++(s.entry.key.drop s.shared++s.entry.val++rest) ∧ pre.length = p) ∧
      p+(s.entry.key.length-s.shared)+s.entry.val.length = slotOffset slots (i+1) := by
  obtain ⟨hfits,-⟩ := h.get hs
  obtain ⟨tail,hdata⟩ := h.region
  have hi := (List.getElem?_eq_some_iff.mp hs).1
  have hle := h.offset_le (i := i+1) hi
  have hsucc := slotOffset_succ hs
  have hlen := encodeEntry_length s.shared s.entry
  have hd : data = regionBytes (slots.take i)++
      (headerBytes s.shared (s.entry.key.length-s.shared) s.entry.val.length++
      (s.entry.key.drop s.shared++s.entry.val++(regionBytes (slots.drop (i+1))++tail))) := by
    rw [hdata,regionBytes_split hs,Slot.bytes,encodeEntry_eq]
    simp only [List.append_assoc]
  have hdec := decodeEntry_headerBytes (regionBytes (slots.take i))
    (s.entry.key.drop s.shared++s.entry.val++(regionBytes (slots.drop (i+1))++tail)) restarts
    hfits.1 hfits.2.1 hfits.2.2 (by
      rw [hsucc,Slot.bytes,hlen,slotOffset] at hle
      omega)
  rw [← hd,← List.length_append] at hdec
  refine ⟨_,hdec,⟨_,_,by rw [hd,← List.append_assoc],rfl⟩,?_⟩
  rw [hsucc,Slot.bytes,hlen,List.length_append,slotOffset]
  omega

/-! ### A block determines its entries -/

theorem keyBefore_congr {s t : List Slot} {i : ℕ}
    (h : ∀ k < i, (s[k]?).map Slot.entry = (t[k]?).map Slot.entry) :
    keyBefore [] s i = keyBefore [] t i := by
  cases i with
  | zero => rfl
  | succ i =>
    have hi := h i (Nat.lt_succ_self i)
    simp only [keyBefore]
    cases hs : s[i]? <;> cases ht : t[i]? <;> simp_all

/-- Two slots decoded at the same place hold the same entry. -/
theorem Slotted.entry_unique {t : List Slot} {rs' : List ℕ} (h : Slotted data restarts n slots rs)
    (h' : Slotted data restarts n t rs') {i : ℕ} (hoff : slotOffset slots i = slotOffset t i)
    (hkey : keyBefore [] slots i = keyBefore [] t i) {a b : Slot} (ha : slots[i]? = some a)
    (hb : t[i]? = some b) :
    a.entry = b.entry ∧ slotOffset slots (i+1) = slotOffset t (i+1) := by
  obtain ⟨p,hdec,⟨pre,rest,hdata,hpre⟩,hnext⟩ := h.decode ha
  obtain ⟨p',hdec',⟨pre',rest',hdata',hpre'⟩,hnext'⟩ := h'.decode hb
  rw [hoff,hdec'] at hdec
  simp only [Except.ok.injEq,Option.some.injEq,Prod.mk.injEq] at hdec
  obtain ⟨rfl,hshared,hsuffix,hval⟩ := hdec
  have hbytes : a.entry.key.drop a.shared++a.entry.val++rest =
      b.entry.key.drop b.shared++b.entry.val++rest' := by
    have hd := hdata.symm.trans hdata'
    exact (List.append_inj hd (hpre.trans hpre'.symm)).2
  rw [List.append_assoc,List.append_assoc] at hbytes
  obtain ⟨hk,hrest⟩ := List.append_inj hbytes (by simp only [List.length_drop]; omega)
  have hv := (List.append_inj hrest hval.symm).1
  obtain ⟨-,-,-,hta⟩ := h.get ha
  obtain ⟨-,-,-,htb⟩ := h'.get hb
  have hkeyEq : a.entry.key = b.entry.key := by
    rw [← List.take_append_drop a.shared a.entry.key,← List.take_append_drop b.shared b.entry.key,
      hk,← hta,← htb,hkey,hshared]
  refine ⟨?_,by omega⟩
  cases ha' : a.entry
  cases hb' : b.entry
  simp_all

theorem Slotted.entries_unique {t : List Slot} {rs' : List ℕ} (h : Slotted data restarts n slots rs)
    (h' : Slotted data restarts n t rs') : slots.map Slot.entry = t.map Slot.entry := by
  have hagree : ∀ i ≤ slots.length, i ≤ t.length ∧ slotOffset slots i = slotOffset t i ∧
      ∀ k < i, (slots[k]?).map Slot.entry = (t[k]?).map Slot.entry := by
    intro i
    induction i with
    | zero => simp
    | succ i ih =>
      intro hi
      obtain ⟨hle,hoff,heq⟩ := ih (by omega)
      have ha : slots[i]? = some slots[i] := List.getElem?_eq_getElem (by omega)
      have hlt : i < t.length := by
        refine lt_of_le_of_ne hle (fun hit => ?_)
        have h1 := h.offset_lt (show i < slots.length by omega) le_rfl
        rw [h.offset_length,hoff,hit,h'.offset_length] at h1
        exact lt_irrefl _ h1
      have hb : t[i]? = some t[i] := List.getElem?_eq_getElem hlt
      obtain ⟨hentry,hnext⟩ := h.entry_unique h' hoff (keyBefore_congr heq) ha hb
      refine ⟨hlt,hnext,fun k hk => ?_⟩
      rcases Nat.lt_or_ge k i with hki | hki
      · exact heq k hki
      · obtain rfl : k = i := by omega
        rw [ha,hb,Option.map_some,Option.map_some,hentry]
  obtain ⟨hle,hoff,heq⟩ := hagree slots.length le_rfl
  have hlen : slots.length = t.length := by
    refine le_antisymm hle (not_lt.mp (fun hlt => ?_))
    have h1 := h'.offset_lt hlt le_rfl
    rw [h'.offset_length,← hoff,h.offset_length] at h1
    exact lt_irrefl _ h1
  refine List.ext_getElem? (fun i => ?_)
  rw [List.getElem?_map,List.getElem?_map]
  rcases Nat.lt_or_ge i slots.length with hlt | hge
  · exact heq i hlt
  · rw [List.getElem?_eq_none hge,List.getElem?_eq_none (by omega)]

end

end Mtbl
