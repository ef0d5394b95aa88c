import Mtbl.Merge.Complete

/-! The merger without a merge function. Each entry is returned as it was taken, so that the values of
a key come one by one. -/
namespace Mtbl
open CRun Cursor

theorem takeNext_no_merge {e : Entry} (he : e.key ≠ []) (taken : List Entry) :
    takeNext none (e::taken) = (.entry e,taken) := by
  cases taken with
  | nil => rfl
  | cons a taken => exact collect_no_merge he

/-- What is taken is what is returned. -/
theorem returned_no_merge {taken : List Entry} (hkeys : ∀ e ∈ taken, e.key ≠ []) :
    Returned none taken taken := by
  induction taken with
  | nil => exact .nil
  | cons e taken ih =>
    apply Returned.cons (takeNext_no_merge (hkeys e List.mem_cons_self) taken)
    exact ih (fun a ha => hkeys a (List.mem_cons_of_mem e ha))

/-- All entries, each as often as it is there, by key and then in dupsort order. -/
structure Unmerged (dupsort : Option DupsortFunc) (es out : List Entry) : Prop where
  perm : out.Perm es
  sorted : KeySorted out
  dups : ∀ d, dupsort = some d → DupsortOrder d →
    out.Pairwise (fun a b => a.key = b.key → d a.key a.val b.val ≤ 0)

/-- The order in which the heap hands out the entries is the one that is asked for. -/
theorem unmerged_of_takeOrder {dupsort : Option DupsortFunc} {le : Entry → Entry → Prop}
    {taken es : List Entry} (hperm : taken.Perm es) (hsorted : taken.Pairwise le)
    (hkey : ∀ a b, le a b → a.key ≤ b.key)
    (hdup : ∀ d, dupsort = some d → DupsortOrder d →
      ∀ a b, le a b → a.key = b.key → d a.key a.val b.val ≤ 0) : Unmerged dupsort es taken where
  perm := hperm
  sorted := hsorted.imp (hkey _ _)
  dups d hd hord := hsorted.imp (hdup d hd hord _ _)

/-- A merger over sources of strictly ascending non-empty keys and without a merge function: its
iterator returns the union of all entries, in order. -/
theorem merger_unmerged {σ : Type} (I : Ops σ Entry Bytes) (sources : List (Source σ))
    (ess : List (List Entry)) (hsources : List.Forall₂ (Source.Holds I) sources ess)
    (hkeys : ∀ e ∈ ess.flatten, e.key ≠ []) (dupsort : Option DupsortFunc) :
    ∃ out, Unmerged dupsort ess.flatten out ∧ ∃ n, ∀ fuel, n ≤ fuel →
      Gives (mergerIterOps I fuel) (mergerIter I ⟨sources,none,dupsort⟩) out := by
  obtain ⟨le,hle,hdup⟩ := exists_takeOrder ⟨none,dupsort⟩
  obtain ⟨it,taken,hrun,htakes,hopt,hperm,hsorted⟩ := mergerIter_takes
    (m := ⟨sources,none,dupsort⟩) hle (steps_enumerates (mtblIterNext I))
    (sourcesGive_iter hsources)
  have hret : Returned none taken taken :=
    returned_no_merge (fun e he => hkeys e (hperm.mem_iff.mp he))
  have hout : Unmerged dupsort ess.flatten taken :=
    unmerged_of_takeOrder hperm hsorted hle.key_le hdup
  have ht : TakesOpt I ⟨none,dupsort⟩ taken (some it) := ⟨htakes,hopt⟩
  exact ⟨taken,hout,taken.length+1,fun fuel hfuel => ⟨some it,hrun,hret.enumerates ht hfuel⟩⟩

/-- Two files with an entry in common, to be sorted with the greater values first. -/
theorem merger_unmerged_two : ∃ file1 file2 r1 r2 out,
    Produced storingCodec file1 [⟨[1],[10]⟩,⟨[2],[20]⟩] ∧
    Produced storingCodec file2 [⟨[1],[10]⟩] ∧
    mtblReaderInitFd storingCodec file1 ⟨true⟩ = .ok (some r1) ∧
    mtblReaderInitFd storingCodec file2 ⟨true⟩ = .ok (some r2) ∧
    Unmerged (some (fun _ a b => bytesCompare b a)) [⟨[1],[10]⟩,⟨[2],[20]⟩,⟨[1],[10]⟩] out ∧
    ∃ n, ∀ fuel, n ≤ fuel → Gives (mergerIterOps (readerOps storingCodec) fuel)
      (mergerIter (readerOps storingCodec)
        ⟨[mtblReaderSource storingCodec r1,mtblReaderSource storingCodec r2],none,
          some (fun _ a b => bytesCompare b a)⟩) out := by
  obtain ⟨file1,r1,hfile1,hopen1,hsource1⟩ := exists_source storingCodec
    [⟨[1],[10]⟩,⟨[2],[20]⟩] (by decide) (by decide +kernel)
  obtain ⟨file2,r2,hfile2,hopen2,hsource2⟩ := exists_source storingCodec
    [⟨[1],[10]⟩] (by decide) (by decide +kernel)
  have hsources : List.Forall₂ (Source.Holds (readerOps storingCodec))
      [mtblReaderSource storingCodec r1,mtblReaderSource storingCodec r2]
      [[⟨[1],[10]⟩,⟨[2],[20]⟩],[⟨[1],[10]⟩]] := .cons hsource1 (.cons hsource2 .nil)
  obtain ⟨out,hout,hgives⟩ := merger_unmerged (readerOps storingCodec) _ _ hsources (by decide)
    (some (fun _ a b => bytesCompare b a))
  exact ⟨file1,file2,r1,r2,out,hfile1,hfile2,hopen1,hopen2,hout,hgives⟩

end Mtbl
