import Mtbl.File.Source
import Mtbl.Lib.CodeWords

/-! The `mtbl_dump` program: the entries of a file that pass its filters, one to a line. With `-x` the
text says what was shown; without, a backslash in the data is ambiguous. -/
namespace Mtbl
open CRun Cursor CodeWords

/-! ### Text -/

/-- A digit as `%x` prints it. -/
def hexDigit (n : ℕ) : UInt8 := if n < 10 then .ofNat (48+n) else .ofNat (87+n)

/-- `%02x`, `%08x`: so many digits, of values that have no more. -/
def hexField : ℕ → ℕ → Bytes
  | 0,_ => []
  | width+1,v => hexField width (v/16)++[hexDigit (v%16)]

/-- Pairs of digits, with a dash between them. -/
def hexPairs : Bytes → Bytes
  | [] => []
  | c::str => hexField 2 c.toNat++(if str = [] then [] else [45])++hexPairs str

def printHexString (data : Bytes) : Run Bytes := do
  check (data.length < 4294967295)
  return hexField 8 (data.length%2^32)++58::hexPairs data

def isprint (c : UInt8) : Bool := decide (32 ≤ c ∧ c ≤ 126)

/-- One character between the quotes. -/
def printChar (c : UInt8) : Bytes :=
  if isprint c then if c = 34 then [92,34] else [c]
  else 92::120::hexField 2 c.toNat

def printString (data : Bytes) : Bytes := 34::(data.flatMap printChar++[34])

def toupper (c : UInt8) : UInt8 := if 97 ≤ c ∧ c ≤ 122 then c-32 else c

def hexToInt (hex : UInt8) : Option ℕ :=
  let hex := toupper hex
  if 48 ≤ hex ∧ hex ≤ 57 then some (hex.toNat-48)
  else if 65 ≤ hex ∧ hex ≤ 70 then some (hex.toNat-55)
  else none

/-- The loop of `hex_decode`, two digits a round. -/
def hexDecodeLoop : Bytes → Option Bytes
  | [] => some []
  | [_] => none
  | hex0::hex1::hex => do
    let val0 ← hexToInt hex0
    let val1 ← hexToInt hex1
    let raw ← hexDecodeLoop hex
    return .ofNat (val0<<<4 ||| val1)::raw

/-- `hex_decode` of a string without its zero byte. -/
def hexDecode (hex : Bytes) : Option Bytes :=
  if hex.length = 0 ∨ hex.length%2 ≠ 0 then none else hexDecodeLoop hex

/-! ### The program -/

/-- The arguments of `dump`; without a filter on the bytes its pointer is NULL. -/
structure DumpOptions where
  silent : Bool
  hex : Bool
  keyPrefix : Option Bytes
  valPrefix : Option Bytes
  keyMinLen : ℕ
  valMinLen : ℕ
  deriving DecidableEq, Repr

def lacks (pre : Option Bytes) (data : Bytes) : Bool :=
  match pre with
  | none => false
  | some pre => decide (data.length < pre.length) || decide (data.take pre.length ≠ pre)

/-- Each filter continues with the next entry. -/
def skips (opt : DumpOptions) (e : Entry) : Bool :=
  lacks opt.keyPrefix e.key || lacks opt.valPrefix e.val ||
    (decide (e.key.length < opt.keyMinLen) || decide (e.val.length < opt.valMinLen)) || opt.silent

def dumpEntry (hex : Bool) (e : Entry) : Run Bytes :=
  if hex then do
    let key ← printHexString e.key
    let val ← printHexString e.val
    return key++32::(val++[10])
  else return printString e.key++32::(printString e.val++[10])

def dumpLoop {σ : Type} (opt : DumpOptions) (next : σ → Run (Option Entry × σ)) :
    ℕ → σ → Bytes → Run Bytes
  | 0,_,_ => .error .fuel
  | n+1,it,out => do
    let (e,it) ← next it
    match e with
    | none => return out
    | some e =>
      if skips opt e then dumpLoop opt next n it out
      else do
        let line ← dumpEntry opt.hex e
        dumpLoop opt next n it (out++line)

/-- `dump`. The result is what is printed, or `none` where the file does not open. -/
def dump (codec : Codec) (opt : DumpOptions) (fuel : ℕ) (file : Bytes) : Run (Option Bytes) := do
  match ← mtblReaderInitFd codec file ⟨false⟩ with
  | none => return none
  | some r => do
    let it ← (mtblReaderSource codec r).iter
    let out ← dumpLoop opt (mtblIterNext (readerOps codec)) fuel it []
    return some out

/-! ### Reading the text -/

theorem hexDigit_injective {m n : ℕ} (hm : m < 16) (hn : n < 16) (h : hexDigit m = hexDigit n) :
    m = n := by
  have hall : ∀ m < 16, ∀ n < 16, hexDigit m = hexDigit n → m = n := by decide
  exact hall m hm n hn h

theorem hexToInt_hexDigit {n : ℕ} (hn : n < 16) : hexToInt (hexDigit n) = some n := by
  have hall : ∀ n < 16, hexToInt (hexDigit n) = some n := by decide
  exact hall n hn

@[simp] theorem hexField_length (width v : ℕ) : (hexField width v).length = width := by
  induction width generalizing v with
  | zero => rfl
  | succ width ih => rw [hexField,List.length_append,ih,List.length_singleton]

theorem hexField_injective {width v w : ℕ} (hv : v < 16^width) (hw : w < 16^width)
    (h : hexField width v = hexField width w) : v = w := by
  induction width generalizing v w with
  | zero =>
    rw [pow_zero] at hv hw
    omega
  | succ width ih =>
    rw [pow_succ] at hv hw
    obtain ⟨hhigh,hlow⟩ := List.append_inj' h rfl
    have hdiv := ih (by omega) (by omega) hhigh
    have hmod := hexDigit_injective (Nat.mod_lt v (by norm_num)) (Nat.mod_lt w (by norm_num))
      (List.cons.inj hlow).1
    omega

theorem hexField_prefixFree (width : ℕ) : PrefixFree (fun v => v < 16^width) (hexField width) :=
  prefixFree_of_length (fun v _ => hexField_length width v) (fun _ _ => hexField_injective)

/-- A byte has two digits. -/
theorem byte_prefixFree : PrefixFree (fun _ => True) (fun c : UInt8 => hexField 2 c.toNat) := by
  intro b c _ _ r s h
  obtain ⟨heq,hrest⟩ := hexField_prefixFree 2 b.toNat_lt c.toNat_lt r s h
  exact ⟨UInt8.toNat_inj.mp heq,hrest⟩

/-- Of two byte strings with equally many bytes. -/
theorem hexPairs_read {data data' : Bytes} (hlen : data.length = data'.length) {r s : Bytes}
    (h : hexPairs data++r = hexPairs data'++s) : data = data' ∧ r = s := by
  induction data generalizing data' with
  | nil =>
    obtain rfl := List.length_eq_zero_iff.mp hlen.symm
    exact ⟨rfl,h⟩
  | cons c str ih =>
    cases data' with
    | nil => cases hlen
    | cons c' str' =>
      have hrestlen : str.length = str'.length := Nat.succ.inj hlen
      have hnil : str = [] ↔ str' = [] := by
        rw [← List.length_eq_zero_iff,hrestlen,List.length_eq_zero_iff]
      simp only [hexPairs,List.append_assoc,hnil] at h
      obtain ⟨rfl,hdash⟩ := byte_prefixFree trivial trivial _ _ h
      obtain ⟨rfl,hend⟩ := ih hrestlen (List.append_cancel_left hdash)
      exact ⟨rfl,hend⟩

/-- The text of one key or value under `-x`. -/
def hexText (data : Bytes) : Bytes := hexField 8 (data.length%2^32)++58::hexPairs data

/-- The lengths that the assertion lets pass are told apart. -/
theorem hexText_prefixFree : PrefixFree (fun data => data.length < 4294967295) hexText := by
  intro data data' h h' r s heq
  have hfits : ∀ n < 4294967295, n%2^32 < 16^8 ∧ n%2^32 = n := by omega
  simp only [hexText,List.append_assoc,List.cons_append] at heq
  obtain ⟨hlen,hrest⟩ := hexField_prefixFree 8 (hfits _ h).1 (hfits _ h').1 _ _ heq
  rw [(hfits _ h).2,(hfits _ h').2] at hlen
  exact hexPairs_read hlen (List.cons.inj hrest).2

/-- What a character is printed as. -/
theorem printChar_cases (c : UInt8) :
    (printChar c = [c] ∧ c ≠ 34) ∨ (c = 34 ∧ printChar c = [92,34]) ∨
      printChar c = 92::120::hexField 2 c.toNat := by
  unfold printChar
  split_ifs with hprint hquote
  · exact .inr (.inl ⟨hquote,rfl⟩)
  · exact .inl ⟨rfl,hquote⟩
  · exact .inr (.inr rfl)

/-- A backslash as it is begins other words. -/
theorem printChar_prefixFree : PrefixFree (fun c => c ≠ 92) printChar := by
  intro a b ha hb r s h
  rcases printChar_cases a with ⟨hap,-⟩ | ⟨haq,hap⟩ | hap <;>
    rcases printChar_cases b with ⟨hbp,-⟩ | ⟨hbq,hbp⟩ | hbp <;>
    simp only [hap,hbp,List.cons_append,List.nil_append,List.cons.injEq] at h
  · exact h
  · exact absurd h.1 ha
  · exact absurd h.1 ha
  · exact absurd h.1.symm hb
  · exact ⟨haq.trans hbq.symm,h.2.2⟩
  · exact absurd h.2.1 (by decide)
  · exact absurd h.1.symm hb
  · exact absurd h.2.1 (by decide)
  · exact byte_prefixFree trivial trivial _ _ h.2.2

theorem printChar_head (c : UInt8) : ∃ d rest, printChar c = d::rest ∧ d ≠ 34 := by
  rcases printChar_cases c with ⟨hp,hne⟩ | ⟨rfl,hp⟩ | hp
  · exact ⟨c,[],hp,hne⟩
  · exact ⟨92,[34],hp,by decide⟩
  · exact ⟨92,_,hp,by decide⟩

/-- Between its quotes a string without backslashes can be read back. -/
theorem printString_prefixFree : PrefixFree (fun data : Bytes => ∀ c ∈ data, c ≠ 92) printString := by
  intro data data' h h' r s heq
  exact printChar_prefixFree.marked (fun c _ => printChar_head c) h h' r s (List.cons.inj heq).2

/-- The argument of `-k` or `-v`: the digits of a key or value as they were printed, without dashes. -/
theorem hexDecode_hexPairs {data : Bytes} (hne : data ≠ []) :
    hexDecode ((hexPairs data).filter (fun c => c ≠ 45)) = some data := by
  have hdigits : ∀ n < 16, (hexDigit n ≠ 45) := by decide
  have hpairs : ∀ str : Bytes, (hexPairs str).filter (fun c => c ≠ 45) =
      str.flatMap (fun c => [hexDigit (c.toNat/16%16),hexDigit (c.toNat%16)]) := by
    intro str
    induction str with
    | nil => rfl
    | cons c str ih =>
      have hhigh := hdigits (c.toNat/16%16) (Nat.mod_lt _ (by norm_num))
      have hlow := hdigits (c.toNat%16) (Nat.mod_lt _ (by norm_num))
      rw [hexPairs,List.filter_append,List.filter_append,ih,List.flatMap_cons]
      congr 1
      by_cases hstr : str = [] <;> simp [hexField,hhigh,hlow,hstr]
  have hloop : ∀ str : Bytes, hexDecodeLoop
      (str.flatMap (fun c => [hexDigit (c.toNat/16%16),hexDigit (c.toNat%16)])) = some str := by
    intro str
    induction str with
    | nil => rfl
    | cons c str ih =>
      have hall : ∀ n < 256, (n/16%16)<<<4 ||| n%16 = n := by decide +kernel
      have hbyte : UInt8.ofNat ((c.toNat/16%16)<<<4 ||| c.toNat%16) = c := by
        rw [hall c.toNat c.toNat_lt,UInt8.ofNat_toNat]
      rw [List.flatMap_cons,List.cons_append,List.cons_append,List.nil_append,hexDecodeLoop,
        hexToInt_hexDigit (Nat.mod_lt _ (by norm_num)),
        hexToInt_hexDigit (Nat.mod_lt _ (by norm_num)),ih]
      simp only [Option.bind_eq_bind,Option.bind_some,hbyte]
      rfl
  have hlength : (data.flatMap
      (fun c => [hexDigit (c.toNat/16%16),hexDigit (c.toNat%16)])).length = 2*data.length := by
    rw [List.length_flatMap]
    simp [Nat.mul_comm]
  have hpos := List.length_pos_of_ne_nil hne
  rw [hexDecode,hpairs,hlength,if_neg (by omega),hloop]

/-! ### What is shown -/

/-- The entry passes the filters. -/
structure DumpOptions.Passes (opt : DumpOptions) (e : Entry) : Prop where
  loud : opt.silent = false
  key : ∀ pre ∈ opt.keyPrefix, pre <+: e.key
  val : ∀ pre ∈ opt.valPrefix, pre <+: e.val
  keyLong : opt.keyMinLen ≤ e.key.length
  valLong : opt.valMinLen ≤ e.val.length

theorem lacks_iff {pre : Option Bytes} {data : Bytes} :
    lacks pre data = false ↔ ∀ p ∈ pre, p <+: data := by
  cases pre with
  | none => simp [lacks]
  | some p =>
    simp only [lacks,Option.mem_some_iff,forall_eq',Bool.or_eq_false_iff,decide_eq_false_iff_not,
      not_lt,not_not]
    constructor
    · rintro ⟨-,htake⟩
      exact List.prefix_iff_eq_take.mpr htake.symm
    · intro hp
      exact ⟨hp.length_le,(List.prefix_iff_eq_take.mp hp).symm⟩

theorem skips_iff {opt : DumpOptions} {e : Entry} : skips opt e = false ↔ opt.Passes e := by
  simp only [skips,Bool.or_eq_false_iff,lacks_iff,decide_eq_false_iff_not,not_lt]
  constructor
  · rintro ⟨⟨⟨hkey,hval⟩,hkeyLong,hvalLong⟩,hloud⟩
    exact ⟨hloud,hkey,hval,hkeyLong,hvalLong⟩
  · rintro ⟨hloud,hkey,hval,hkeyLong,hvalLong⟩
    exact ⟨⟨⟨hkey,hval⟩,hkeyLong,hvalLong⟩,hloud⟩

instance (opt : DumpOptions) (e : Entry) : Decidable (opt.Passes e) :=
  decidable_of_iff _ skips_iff

/-- The entries that are shown, in order. -/
def DumpOptions.shown (opt : DumpOptions) (es : List Entry) : List Entry :=
  es.filter (fun e => opt.Passes e)

/-- With `-x` the lengths must be below what the assertion says. -/
def Printable (hex : Bool) (e : Entry) : Prop :=
  hex = true → e.key.length < 4294967295 ∧ e.val.length < 4294967295

instance (hex : Bool) (e : Entry) : Decidable (Printable hex e) :=
  inferInstanceAs (Decidable (hex = true → e.key.length < 4294967295 ∧ e.val.length < 4294967295))

def dataText (hex : Bool) (data : Bytes) : Bytes := if hex then hexText data else printString data

def entryText (hex : Bool) (e : Entry) : Bytes :=
  dataText hex e.key++32::(dataText hex e.val++[10])

/-- What can be read back from the text of a key or value. -/
def Legible (hex : Bool) (data : Bytes) : Prop :=
  if hex then data.length < 4294967295 else ∀ c ∈ data, c ≠ 92

theorem dataText_prefixFree (hex : Bool) : PrefixFree (Legible hex) (dataText hex) := by
  cases hex with
  | false => exact printString_prefixFree
  | true => exact hexText_prefixFree

theorem entryText_prefixFree (hex : Bool) :
    PrefixFree (fun e : Entry => Legible hex e.key ∧ Legible hex e.val) (entryText hex) := by
  apply (dataText_prefixFree hex).pair (dataText_prefixFree hex)
  rintro ⟨key,val⟩ ⟨key',val'⟩ hkey hval
  exact congr (congrArg Entry.mk hkey) hval

theorem entryText_ne_nil (hex : Bool) (e : Entry) : entryText hex e ≠ [] := by
  simp [entryText]

section
variable {opt : DumpOptions} {es : List Entry} {e : Entry}

theorem dumpEntry_ok {hex : Bool} (h : Printable hex e) :
    dumpEntry hex e = .ok (entryText hex e) := by
  cases hex with
  | false => rfl
  | true =>
    obtain ⟨hkey,hval⟩ := h rfl
    simp only [dumpEntry,printHexString,if_true,check_of hkey,check_of hval,ok_bind,pure_eq_ok]
    rfl

theorem dumpEntry_fails {hex : Bool} (h : ¬ Printable hex e) :
    dumpEntry hex e = .error .assertion := by
  cases hex with
  | false => exact absurd (fun hfalse => by cases hfalse) h
  | true =>
    by_cases hkey : e.key.length < 4294967295
    · have hval : ¬ e.val.length < 4294967295 := fun hval => h (fun _ => ⟨hkey,hval⟩)
      simp only [dumpEntry,printHexString,if_true,check,if_pos hkey,if_neg hval,ok_bind,error_bind,
        pure_eq_ok]
    · simp only [dumpEntry,printHexString,if_true,check,if_neg hkey,error_bind]

theorem shown_cons : opt.shown (e::es) =
    if skips opt e then opt.shown es else e::opt.shown es := by
  by_cases hskip : skips opt e = true
  · have hnot : ¬ opt.Passes e := fun hp => by
      rw [skips_iff.mpr hp] at hskip
      cases hskip
    rw [if_pos hskip,DumpOptions.shown,List.filter_cons_of_neg (by simpa using hnot)]
    rfl
  · have hpasses := skips_iff.mp (Bool.eq_false_iff.mpr hskip)
    rw [if_neg hskip,DumpOptions.shown,List.filter_cons_of_pos (by simpa using hpasses)]
    rfl

variable {σ : Type} {next : σ → Run (Option Entry × σ)} {it : σ}

/-- Every entry is skipped or printed behind the text so far. -/
theorem dumpLoop_ok (h : Enumerates next it es) {fuel : ℕ} (hfuel : es.length < fuel)
    (hprintable : ∀ e ∈ opt.shown es, Printable opt.hex e) (out : Bytes) :
    dumpLoop opt next fuel it out = .ok (out++(opt.shown es).flatMap (entryText opt.hex)) := by
  induction es generalizing it fuel out with
  | nil =>
    obtain ⟨fuel,rfl⟩ := Nat.exists_eq_succ_of_ne_zero (Nat.ne_of_gt hfuel)
    obtain ⟨it',hnext,-⟩ := steps_enumerates next it [] h
    simp [dumpLoop,hnext,DumpOptions.shown]
  | cons e es ih =>
    obtain ⟨fuel,rfl⟩ := Nat.exists_eq_succ_of_ne_zero (Nat.ne_zero_of_lt hfuel)
    obtain ⟨it',hnext,hrest⟩ := steps_enumerates next it (e::es) h
    have hless : es.length < fuel := Nat.lt_of_succ_lt_succ hfuel
    rw [shown_cons] at hprintable ⊢
    simp only [dumpLoop,hnext,ok_bind,List.head?_cons]
    by_cases hskip : skips opt e = true
    · rw [if_pos hskip] at hprintable ⊢
      rw [if_pos hskip]
      exact ih hrest hless hprintable out
    · rw [if_neg hskip] at hprintable ⊢
      rw [if_neg hskip,dumpEntry_ok (hprintable e List.mem_cons_self),ok_bind,
        ih hrest hless (fun x hx => hprintable x (List.mem_cons_of_mem _ hx)),List.flatMap_cons,
        List.append_assoc]

theorem dumpLoop_fails (h : Enumerates next it es) {fuel : ℕ} (hfuel : es.length < fuel)
    (hlong : ¬ ∀ e ∈ opt.shown es, Printable opt.hex e) (out : Bytes) :
    dumpLoop opt next fuel it out = .error .assertion := by
  induction es generalizing it fuel out with
  | nil => exact absurd (by simp [DumpOptions.shown]) hlong
  | cons e es ih =>
    obtain ⟨fuel,rfl⟩ := Nat.exists_eq_succ_of_ne_zero (Nat.ne_zero_of_lt hfuel)
    obtain ⟨it',hnext,hrest⟩ := steps_enumerates next it (e::es) h
    have hless : es.length < fuel := Nat.lt_of_succ_lt_succ hfuel
    rw [shown_cons] at hlong
    simp only [dumpLoop,hnext,ok_bind,List.head?_cons]
    by_cases hskip : skips opt e = true
    · rw [if_pos hskip] at hlong ⊢
      exact ih hrest hless hlong out
    · rw [if_neg hskip] at hlong ⊢
      by_cases hprint : Printable opt.hex e
      · rw [dumpEntry_ok hprint,ok_bind]
        exact ih hrest hless (fun hall => hlong (List.forall_mem_cons.mpr ⟨hprint,hall⟩)) _
      · rw [dumpEntry_fails hprint,error_bind]

end

/-- What is printed, and when. -/
theorem dump_ok_iff {codec : Codec} {file : Bytes} {es : List Entry} (h : Produced codec file es)
    (opt : DumpOptions) {fuel : ℕ} (hfuel : es.length < fuel) {text : Bytes} :
    dump codec opt fuel file = .ok (some text) ↔
      (∀ e ∈ opt.shown es, Printable opt.hex e) ∧
        text = (opt.shown es).flatMap (entryText opt.hex) := by
  obtain ⟨r,hopen,hsource⟩ := h.source ⟨false⟩
  obtain ⟨it,hiter,henum⟩ := hsource.iter
  have hdump : dump codec opt fuel file = (do
      let out ← dumpLoop opt (mtblIterNext (readerOps codec)) fuel it []
      return some out) := by
    simp only [dump,hopen,ok_bind,hiter]
  rw [hdump]
  by_cases hprintable : ∀ e ∈ opt.shown es, Printable opt.hex e
  · rw [dumpLoop_ok henum hfuel hprintable,ok_bind,List.nil_append]
    constructor
    · intro htext
      exact ⟨hprintable,(Option.some.inj (Except.ok.inj htext)).symm⟩
    · rintro ⟨-,rfl⟩
      rfl
  · rw [dumpLoop_fails henum hfuel hprintable,error_bind]
    constructor
    · intro htext
      cases htext
    · rintro ⟨hall,-⟩
      exact absurd hall hprintable

theorem Printable.legible {hex : Bool} {e : Entry} (h : Printable hex e)
    (hplain : hex = true ∨ ∀ c ∈ e.key++e.val, c ≠ 92) : Legible hex e.key ∧ Legible hex e.val := by
  cases hex with
  | true => exact h rfl
  | false =>
    have hall := hplain.resolve_left Bool.false_ne_true
    constructor
    · intro c hc
      exact hall c (List.mem_append_left _ hc)
    · intro c hc
      exact hall c (List.mem_append_right _ hc)

/-- On a file that the writer left, `mtbl_dump` prints the entries that pass its filters, unless `-x`
meets a key or value of `2^32-1` bytes. Two of its texts are then equal exactly if the same entries
were shown, always with `-x` and without it as long as no backslash was; and the digits of what was
printed with `-x` are what the filters take for it. -/
theorem dump_tells (codec : Codec) (file file' : Bytes) (es es' : List Entry)
    (h : Produced codec file es) (h' : Produced codec file' es') (opt opt' : DumpOptions)
    (hhex : opt'.hex = opt.hex) (fuel fuel' : ℕ) (hfuel : es.length < fuel)
    (hfuel' : es'.length < fuel') :
    (∀ text, dump codec opt fuel file = .ok (some text) ↔
      (∀ e ∈ opt.shown es, Printable opt.hex e) ∧
        text = (opt.shown es).flatMap (entryText opt.hex)) ∧
    (∀ text text', dump codec opt fuel file = .ok (some text) →
      dump codec opt' fuel' file' = .ok (some text') →
      (opt.hex = true ∨ ∀ e ∈ opt.shown es++opt'.shown es', ∀ c ∈ e.key++e.val, c ≠ 92) →
      (text = text' ↔ opt.shown es = opt'.shown es')) ∧
    ∀ data : Bytes, data ≠ [] →
      hexDecode ((hexPairs data).filter (fun c => c ≠ 45)) = some data := by
  refine ⟨fun _ => dump_ok_iff h opt hfuel,?_,fun _ => hexDecode_hexPairs⟩
  intro text text' htext htext' hplain
  obtain ⟨hprintable,rfl⟩ := (dump_ok_iff h opt hfuel).mp htext
  obtain ⟨hprintable',rfl⟩ := (dump_ok_iff h' opt' hfuel').mp htext'
  rw [hhex] at hprintable' ⊢
  constructor
  · apply (entryText_prefixFree opt.hex).flatMap (fun e _ => entryText_ne_nil opt.hex e)
    · intro e he
      exact (hprintable e he).legible
        (hplain.imp_right (fun hall => hall e (List.mem_append_left _ he)))
    · intro e he
      exact (hprintable' e he).legible
        (hplain.imp_right (fun hall => hall e (List.mem_append_right _ he)))
  · intro hshown
    rw [hshown]

/-- Without `-x` a newline is printed as the four characters that stand for it. -/
example : printString [10] = printString [92,120,48,97] := by decide

/-- Two files with entries under one key, told apart by the digits of the values. -/
theorem dump_tells_two : ∃ file file' text text', Produced storingCodec file [⟨[1],[10]⟩] ∧
    Produced storingCodec file' [⟨[1],[92]⟩] ∧
    dump storingCodec ⟨false,true,some [1],none,0,0⟩ 2 file = .ok (some text) ∧
    dump storingCodec ⟨false,true,some [1],none,0,0⟩ 2 file' = .ok (some text') ∧ text ≠ text' := by
  obtain ⟨file,h⟩ := exists_produced storingCodec [] plainOptions [⟨[1],[10]⟩] (by decide) (by decide)
    (by decide +kernel)
  obtain ⟨file',h'⟩ := exists_produced storingCodec [] plainOptions [⟨[1],[92]⟩] (by decide)
    (by decide) (by decide +kernel)
  have htells := dump_tells storingCodec file file' _ _ h h' ⟨false,true,some [1],none,0,0⟩
    ⟨false,true,some [1],none,0,0⟩ rfl 2 2 (by decide) (by decide)
  have htells' := dump_tells storingCodec file' file _ _ h' h ⟨false,true,some [1],none,0,0⟩
    ⟨false,true,some [1],none,0,0⟩ rfl 2 2 (by decide) (by decide)
  have htext := (htells.1 _).mpr ⟨by decide,rfl⟩
  have htext' := (htells'.1 _).mpr ⟨by decide,rfl⟩
  refine ⟨file,file',_,_,h,h',htext,htext',fun heq => ?_⟩
  have hshown := (htells.2.1 _ _ htext htext' (.inl rfl)).mp heq
  exact absurd hshown (by decide)

end Mtbl
