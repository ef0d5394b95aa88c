import Mtbl.Bytes.Compare
import Mtbl.Lib.CRun

/-! `bytes_shortest_separator`: the key the writer records for a finished data block. The code
raises the first byte that differs, or the big-endian pair of bytes there, and cuts the rest. -/
namespace Mtbl
open CRun

/-- The loop shared by `bytes_shortest_separator` and `block_builder_add`: the number of leading
bytes on which two strings agree. -/
def diffIndex : Bytes → Bytes → ℕ
  | a::as,b::bs => if a = b then diffIndex as bs+1 else 0
  | _,_ => 0

/-- Two bytes read as a big-endian `uint16_t`. -/
def be16 (s : Bytes) (i : ℕ) : ℕ := (s.getD i 0).toNat*256+(s.getD (i+1) 0).toNat

/-- The string `bytes_shortest_separator` leaves in `start`, before its final assertion. -/
def separatorBytes (start limit : Bytes) : Bytes :=
  let minLength := if start.length < limit.length then start.length else limit.length
  let i := diffIndex start limit
  let diffByte := (start.getD i 0).toNat
  if diffByte < 0xFF ∧ diffByte+1 < (limit.getD i 0).toNat then
    start.take i++[UInt8.ofNat (diffByte+1)]
  else if i+2 < minLength then
    let uStart := be16 start i
    let uLimit := be16 limit i
    let uBetween := (uStart+1)%2^16
    if uStart ≤ uBetween ∧ uBetween ≤ uLimit then
      start.take i++[UInt8.ofNat (uBetween/256),UInt8.ofNat uBetween]
    else start
  else start

def bytesShortestSeparator (start limit : Bytes) : Run Bytes := do
  let minLength := if start.length < limit.length then start.length else limit.length
  if minLength ≤ diffIndex start limit then
    return start
  let result := separatorBytes start limit
  check (bytesCompare result limit < 0)
  return result

theorem separatorBytes_length {start limit : Bytes} (h : diffIndex start limit < start.length) :
    (separatorBytes start limit).length ≤ start.length := by
  simp only [separatorBytes]
  split_ifs <;> first
    | exact le_rfl
    | (simp only [List.length_append,List.length_take,List.length_cons,List.length_nil]
       omega)

theorem bytesShortestSeparator_length {start limit sep : Bytes}
    (h : bytesShortestSeparator start limit = .ok sep) : sep.length ≤ start.length := by
  unfold bytesShortestSeparator at h
  by_cases hmin : (if start.length < limit.length then start.length else limit.length) ≤
      diffIndex start limit
  · simp only [hmin,↓reduceIte] at h
    obtain rfl := Except.ok.inj h
    exact le_rfl
  · simp only [hmin,↓reduceIte] at h
    obtain ⟨-,-,h⟩ := bind_eq_ok.mp h
    obtain rfl := Except.ok.inj h
    apply separatorBytes_length
    split at hmin <;> omega

@[simp] theorem bytesShortestSeparator_nil (limit : Bytes) :
    bytesShortestSeparator [] limit = .ok [] := by
  cases limit <;> simp [bytesShortestSeparator]

/-- The two strings split at the first difference. -/
theorem diffIndex_split (s t : Bytes) :
    ∃ p s' t', s = p++s' ∧ t = p++t' ∧ p.length = diffIndex s t ∧
      (∀ a as b bs, s' = a::as → t' = b::bs → a ≠ b) := by
  induction s generalizing t with
  | nil => exact ⟨[],[],t,rfl,rfl,by simp [diffIndex],by simp⟩
  | cons a as ih =>
    cases t with
    | nil => exact ⟨[],a::as,[],rfl,rfl,by simp [diffIndex],by simp⟩
    | cons b bs =>
      by_cases h : a = b
      · obtain ⟨p,s',t',hs,ht,hp,hne⟩ := ih bs
        exact ⟨a::p,s',t',by simp [hs],by simp [ht,h],by simp [diffIndex,h,hp],hne⟩
      · refine ⟨[],a::as,b::bs,rfl,rfl,by simp [diffIndex,h],?_⟩
        rintro _ _ _ _ ⟨rfl,rfl⟩ ⟨rfl,rfl⟩
        exact h

theorem diffIndex_le_left (s t : Bytes) : diffIndex s t ≤ s.length := by
  obtain ⟨p,s',t',hs,-,hp,-⟩ := diffIndex_split s t
  rw [← hp,hs,List.length_append]
  omega

theorem diffIndex_le_right (s t : Bytes) : diffIndex s t ≤ t.length := by
  obtain ⟨p,s',t',-,ht,hp,-⟩ := diffIndex_split s t
  rw [← hp,ht,List.length_append]
  omega

/-- The shared part of the two strings is the same bytes in both. -/
theorem take_diffIndex (s t : Bytes) : s.take (diffIndex s t) = t.take (diffIndex s t) := by
  obtain ⟨p,s',t',hs,ht,hp,-⟩ := diffIndex_split s t
  rw [← hp]
  nth_rewrite 1 [hs]
  nth_rewrite 1 [ht]
  simp

theorem append_lt_append_left (p s t : Bytes) : p++s < p++t ↔ s < t := by
  induction p with
  | nil => simp
  | cons a p ih => simp [ih]

theorem append_le_append_left (p s t : Bytes) : p++s ≤ p++t ↔ s ≤ t := by
  rw [← not_lt,← not_lt,append_lt_append_left]

theorem le_append (s t : Bytes) : s ≤ s++t := by
  have h := (append_le_append_left s [] t).mpr (by cases t <;> simp [← not_lt])
  simpa using h

theorem getD_append_add (p s : Bytes) (i : ℕ) : (p++s).getD (p.length+i) 0 = s.getD i 0 := by
  simp [List.getD_eq_getElem?_getD,List.getElem?_append_right]

theorem be16_append (p s : Bytes) : be16 (p++s) p.length = be16 s 0 := by
  have h0 := getD_append_add p s 0
  have h1 := getD_append_add p s 1
  simp only [Nat.add_zero] at h0
  simp only [be16,h0,h1,Nat.zero_add]

/-- One byte raised, and still below the byte of the limit. -/
theorem cons_lt_of_toNat {a b : UInt8} (s t : Bytes) (h : a.toNat < b.toNat) : a::s < b::t :=
  List.cons_lt_cons_iff.mpr (.inl (UInt8.lt_iff_toNat_lt.mpr h))

/-- Two leading bytes compare as the big-endian number they spell. -/
theorem pair_lt_pair {a c b d : UInt8} (s t : Bytes)
    (h : a.toNat*256+c.toNat < b.toNat*256+d.toNat) : a::c::s < b::d::t := by
  have hc := c.toNat_lt
  have hd := d.toNat_lt
  by_cases hab : a = b
  · subst hab
    exact List.cons_lt_cons_iff.mpr (.inr ⟨rfl,cons_lt_of_toNat _ _ (by omega)⟩)
  · have hne : a.toNat ≠ b.toNat := fun hh => hab (UInt8.toNat_inj.mp hh)
    exact cons_lt_of_toNat _ _ (by omega)

/-- The two-byte path: the big-endian successor of the pair, if it does not pass the pair of the
limit, lies strictly between, because the limit goes on after its pair. -/
theorem pair_between {a c f b d e : UInt8} {s t : Bytes} {u : ℕ}
    (hu : u = (a.toNat*256+c.toNat+1)%2^16) (h1 : a.toNat*256+c.toNat ≤ u)
    (h2 : u ≤ b.toNat*256+d.toNat) :
    a::c::f::s ≤ [UInt8.ofNat (u/256),UInt8.ofNat u] ∧
      [UInt8.ofNat (u/256),UInt8.ofNat u] < b::d::e::t := by
  have ha := a.toNat_lt
  have hc := c.toNat_lt
  have hhi : (UInt8.ofNat (u/256)).toNat = u/256 := by rw [UInt8.toNat_ofNat']; omega
  have hlo : (UInt8.ofNat u).toNat = u%256 := by rw [UInt8.toNat_ofNat']
  refine ⟨(pair_lt_pair _ _ (by omega)).le,?_⟩
  rcases Nat.lt_or_ge u (b.toNat*256+d.toNat) with hlt | hge
  · exact pair_lt_pair _ _ (by omega)
  · have hd := d.toNat_lt
    have hb : UInt8.ofNat (u/256) = b := UInt8.toNat_inj.mp (by omega)
    have hd : UInt8.ofNat u = d := UInt8.toNat_inj.mp (by omega)
    rw [hb,hd,List.cons_lt_cons_iff,List.cons_lt_cons_iff]
    exact .inr ⟨rfl,.inr ⟨rfl,List.nil_lt_cons e t⟩⟩

theorem exists_cons_cons {s : Bytes} (h : 2 ≤ s.length) : ∃ a b t, s = a::b::t := by
  match s with
  | a::b::t => exact ⟨a,b,t,rfl⟩

/-- The string the code leaves lies between its two arguments and is no longer than the first. -/
theorem separatorBytes_spec {start limit : Bytes} (hlt : start < limit)
    (hi : diffIndex start limit < start.length) (hj : diffIndex start limit < limit.length) :
    start ≤ separatorBytes start limit ∧ separatorBytes start limit < limit ∧
      (separatorBytes start limit).length ≤ start.length := by
  obtain ⟨p,s',t',hs,ht,hp,hne⟩ := diffIndex_split start limit
  obtain ⟨a,as,rfl⟩ : ∃ a as, s' = a::as := by
    cases s' with
    | nil => simp only [hs,List.append_nil] at hi hp; omega
    | cons a as => exact ⟨a,as,rfl⟩
  obtain ⟨b,bs,rfl⟩ : ∃ b bs, t' = b::bs := by
    cases t' with
    | nil => simp only [ht,List.append_nil] at hj hp; omega
    | cons b bs => exact ⟨b,bs,rfl⟩
  have hab : a.toNat < b.toNat := by
    rw [hs,ht,append_lt_append_left,List.cons_lt_cons_iff] at hlt
    rcases hlt with h | h
    · exact UInt8.lt_iff_toNat_lt.mp h
    · exact absurd h.1 (hne a as b bs rfl rfl)
  have hb := b.toNat_lt
  have ha0 : (start.getD p.length 0) = a := by
    have h := getD_append_add p (a::as) 0
    rwa [← hs] at h
  have hb0 : (limit.getD p.length 0) = b := by
    have h := getD_append_add p (b::bs) 0
    rwa [← ht] at h
  have htake : start.take p.length = p := by rw [hs]; exact List.take_left' rfl
  have hus : be16 start p.length = be16 (a::as) 0 := by rw [hs]; exact be16_append p _
  have hul : be16 limit p.length = be16 (b::bs) 0 := by rw [ht]; exact be16_append p _
  unfold separatorBytes
  rw [← hp]
  simp only [ha0,hb0,htake,hus,hul]
  have hmin : (if start.length < limit.length then start.length else limit.length) ≤
      start.length ∧ (if start.length < limit.length then start.length else limit.length) ≤
      limit.length := by split <;> omega
  generalize (if start.length < limit.length then start.length else limit.length) = m at hmin
  have hls : start.length = p.length+(as.length+1) := by simp [hs]
  have hlt' : limit.length = p.length+(bs.length+1) := by simp [ht]
  split_ifs with h1 h2 h3
  · have hn : (UInt8.ofNat (a.toNat+1)).toNat = a.toNat+1 := by
      rw [UInt8.toNat_ofNat']
      omega
    rw [hs,ht,append_le_append_left,append_lt_append_left]
    exact ⟨(cons_lt_of_toNat _ _ (by omega)).le,cons_lt_of_toNat _ _ (by omega),by simp⟩
  · -- the guard leaves room for a third byte in both strings
    obtain ⟨c,d',as,rfl⟩ := exists_cons_cons (show 2 ≤ as.length by omega)
    obtain ⟨d,e,bs,rfl⟩ := exists_cons_cons (show 2 ≤ bs.length by omega)
    have h := pair_between (f := d') (s := as) (e := e) (t := bs) rfl h3.1 h3.2
    rw [hs,ht,append_le_append_left,append_lt_append_left]
    exact ⟨h.1,h.2,by simp⟩
  · exact ⟨le_refl _,hlt,le_refl _⟩
  · exact ⟨le_refl _,hlt,le_refl _⟩

/-- Called on `start < limit`, the assertion holds and the result separates the two. -/
theorem bytesShortestSeparator_spec {start limit : Bytes} (hlt : start < limit) :
    ∃ s, bytesShortestSeparator start limit = .ok s ∧ start ≤ s ∧ s < limit ∧
      s.length ≤ start.length := by
  unfold bytesShortestSeparator
  by_cases h : (if start.length < limit.length then start.length else limit.length) ≤
      diffIndex start limit
  · exact ⟨start,by simp [h],le_refl _,hlt,le_refl _⟩
  · have hi : diffIndex start limit < start.length ∧ diffIndex start limit < limit.length := by
      split at h <;> omega
    obtain ⟨h1,h2,h3⟩ := separatorBytes_spec hlt hi.1 hi.2
    exact ⟨separatorBytes start limit,by simp [h,check_of,h2],h1,h2,h3⟩

end Mtbl
