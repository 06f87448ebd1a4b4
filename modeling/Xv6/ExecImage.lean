import Xv6.ExecEffects

/-!
# The image that `exec` builds

The segments of the program and the user stack, step by step: `exec` never panics, what it
returns on is either a complete image or nothing, and in a complete image every byte below the
stack is one of the file or zero.
-/

namespace Xv6.Ram

open PageStore ProcessMemory

variable {img : KernelImage} {r r' r'' : Ram} {d : ℕ}

/-! ## The user stack -/

/-- `allocuvm` for any size. -/
theorem allocuvm_total {oldsz : ℕ} (newsz : ℕ) (hspans : Spans r.mem.page d oldsz)
    (hold : oldsz ≤ kernbase) (hsafe : Safe img r d) :
    ∃ sz r', r.allocuvm img d oldsz newsz = some (sz, r') ∧ r.Within d r' ∧ r.Keeps d r' ∧
      (sz ≠ 0 → sz = max oldsz newsz ∧ newsz < kernbase ∧ Spans r'.mem.page d sz ∧
        ∀ b < kernbase, ¬ Mapped r.mem.page d b → Mapped r'.mem.page d b →
          r'.userByte d b = some 0) := by
  by_cases hnew : newsz ≥ kernbase
  · refine ⟨0, r, ?_, .refl r d, .refl r d, fun h => absurd rfl h⟩
    rw [allocuvm, if_pos hnew]
  · by_cases hlt : oldsz < kernbase
    · exact allocuvm_within newsz hspans hlt hsafe
    · refine ⟨oldsz, r, ?_, .refl r d, .refl r d, fun _ => ⟨?_, ?_, hspans, ?_⟩⟩
      · rw [allocuvm, if_neg hnew, if_pos (by omega)]
      · omega
      · omega
      · exact fun b _ hmapped hmapped' => absurd hmapped' hmapped

/-- The words of the stack do not change what is below the top page. -/
theorem words_below {ptrs : List ℕ} {sz sp b : ℕ}
    (htop : r.TopPage d (sz - pgsize)) (hsafe : Safe img r d) (hsize : 2 * pgsize ≤ sz)
    (hlow : sz - pgsize ≤ sp) (haligned : sp % 4 = 0) (hle : sp ≤ sz)
    (hcall : r.copyout d (wrapUint ((sp : ℤ) - (3 + ptrs.length + 1) * 4))
      (words ([0xffffffff, ptrs.length, wrapUint ((sp : ℤ) - (ptrs.length + 1) * 4)] ++ ptrs ++
        [0])) = some (true, r')) (hb : b < sz - pgsize) : r'.userByte d b = r.userByte d b := by
  generalize harray : wrapUint ((sp : ℤ) - (ptrs.length + 1) * 4) = array at hcall
  have hlength : (words ([0xffffffff, ptrs.length, array] ++ ptrs ++ [0])).length =
      4 * (ptrs.length + 4) := by
    rw [words_length]
    simp only [List.length_append, List.length_cons, List.length_nil]
    omega
  have hpos : 0 < (words ([0xffffffff, ptrs.length, array] ++ ptrs ++ [0])).length := by
    rw [hlength]
    omega
  have hva : wrapUint ((sp : ℤ) - (3 + ptrs.length + 1) * 4) = wrapUint ((sp : ℤ) -
      (words ([0xffffffff, ptrs.length, array] ++ ptrs ++ [0])).length) / 4 * 4 := by
    rw [hlength]
    unfold wrapUint
    push_cast
    omega
  have hsp' : sp ≤ sz - pgsize + pgsize := by
    unfold pgsize at *
    omega
  exact copyout_below htop hsafe hlow hsp' haligned hpos hva hcall hb

/-- The user stack of `exec`: it is built, or `exec` goes on at `bad`. -/
theorem execStackWith_ram {sz₀ : ℕ} (argv : List (List UInt8)) (hsz₀ : sz₀ < kernbase)
    (hspans : Spans r.mem.page d sz₀) (hsafe : Safe img r d)
    (hprivate : KernelPrivate r.mem.page d) :
    ∃ res r', r.execStackWith true img d sz₀ argv = some (res, r') ∧ r.Within d r' ∧
      ∀ x, res = some x → x.1 = pgroundup sz₀ + 2 * pgsize ∧ x.1 < kernbase ∧
        ∀ b < pgroundup sz₀, r'.userByte d b = r.userByte d b := by
  unfold kernbase at hsz₀
  have hround : pgroundup (pgroundup sz₀) = pgroundup sz₀ := by
    unfold pgroundup pgsize
    omega
  have hle : pgroundup sz₀ ≤ kernbase := by
    unfold pgroundup pgsize kernbase
    omega
  have hspans' : Spans r.mem.page d (pgroundup sz₀) := fun b hb => by rw [hspans b hb, hround]
  have haligned₀ : pgroundup sz₀ % 4096 = 0 := by
    unfold pgroundup pgsize
    omega
  obtain ⟨sz₁, r₁, halloc, hwithin₁, hkeeps₁, hgrown⟩ :=
    allocuvm_total ((pgroundup sz₀ + 2 * pgsize) % 2 ^ 32) hspans' hle hsafe
  rw [execStackWith, halloc, Option.bind_some]
  dsimp only
  by_cases hzero : sz₁ = 0
  · rw [if_pos hzero]
    exact ⟨none, r₁, rfl, hwithin₁, fun x h => by cases h⟩
  rw [if_neg hzero]
  obtain ⟨hmax, hnew, hspans₁, -⟩ := hgrown hzero
  have hsize : sz₁ = pgroundup sz₀ + 8192 := by
    unfold kernbase pgsize at *
    omega
  have hsz₁ : sz₁ < kernbase := by
    unfold kernbase pgsize at *
    omega
  have hsafe₁ := hwithin₁.safe hsafe
  have hguard : sz₁ - 2 * pgsize < kernbase := by omega
  have hmapped : Mapped r₁.mem.page d (sz₁ - 2 * pgsize) := by
    apply (hspans₁ _ hguard).mpr
    unfold kernbase at hsz₁
    unfold pgroundup pgsize
    omega
  obtain ⟨r₂, hclear, hwithin₂, -, hbytes₂⟩ := clearpteu_within hguard hmapped hsafe₁
  have hwithin := hwithin₁.trans hwithin₂
  have hsafe₂ := hwithin.safe hsafe
  have hprivate₂ := hprivate.kept hwithin.kernel
  have htop : r₂.TopPage d (sz₁ - pgsize) := by
    have hclear' : Xv6.clearpteu d (sz₁ - 2 * pgsize) r₁.mem = some r₂.mem := by
      rw [clearpteu] at hclear
      obtain ⟨m, hm, rfl⟩ := Option.map_eq_some_iff.mp hclear
      exact hm
    unfold kernbase at hsz₁
    unfold pgsize at *
    refine ⟨?_, ?_, ?_, fun b hb hb' e hpte => ?_⟩
    · unfold pgsize
      omega
    · unfold pgsize
      omega
    · unfold pgsize kernbase
      omega
    · unfold pgsize at hb
      exact clearpteu_pte hmapped hsafe₁ hclear' (by omega) (by omega) (by omega) hpte
  obtain ⟨res, r₃, hpush, hmem₃, hchanges₃⟩ := pushArgsWith_ram argv 0 sz₁ hprivate₂
  have hwithin₃ := hwithin.trans (.of_changes hmem₃ hchanges₃)
  rw [hclear, Option.bind_some, hpush, Option.bind_some]
  obtain _ | ⟨sp, ptrs⟩ := res
  · exact ⟨none, r₃, rfl, hwithin₃, fun x h => by cases h⟩
  dsimp only
  have hlow : sz₁ - pgsize ≤ sz₁ := Nat.sub_le _ _
  have hend : sz₁ ≤ sz₁ - pgsize + pgsize := by
    unfold pgsize
    omega
  have hsz4 : sz₁ % 4 = 0 := by omega
  have hpush' := pushArgsWith_some hpush
  obtain ⟨hsp, hsp4, -, hstacked, -⟩ := pushArgs_spec htop hlow hend hsz4 hpush'
  have hprivate₃ : KernelPrivate r₃.mem.page d := by rwa [hmem₃]
  have hva : wrapUint ((sp : ℤ) - (3 + ptrs.length + 1) * 4) < 2 ^ 32 := by
    unfold wrapUint
    omega
  obtain ⟨ok, r₄, hcopy, hmem₄, hchanges₄⟩ := copyoutWith_ram (p := words ([0xffffffff, ptrs.length,
    wrapUint ((sp : ℤ) - (ptrs.length + 1) * 4)] ++ ptrs ++ [0])) hprivate₃ hva
  have hwithin₄ := hwithin₃.trans (.of_changes hmem₄ hchanges₄)
  rw [hcopy, Option.map_some]
  cases ok with
  | false => exact ⟨none, r₄, rfl, hwithin₄, fun x h => by cases h⟩
  | true =>
    refine ⟨some (sz₁, wrapUint ((sp : ℤ) - (3 + ptrs.length + 1) * 4)), r₄, rfl, hwithin₄,
      fun x hx => ?_⟩
    obtain rfl := Option.some.inj hx
    refine ⟨by unfold pgsize; omega, hsz₁, fun b hb => ?_⟩
    have hbkern : b < kernbase := by omega
    have hbelow : b < sz₁ - pgsize := by
      unfold pgsize
      omega
    have hsafe₃ : Safe img r₃ d := hwithin₃.safe hsafe
    have hmappedb : Mapped r.mem.page d b := (hspans b hbkern).mpr hb
    have hmappedb₁ : Mapped r₁.mem.page d b := by
      have hup : sz₁ ≤ pgroundup sz₁ := by
        unfold kernbase at hsz₁
        unfold pgroundup pgsize
        omega
      exact (hspans₁ b hbkern).mpr (by omega)
    have htwo : 2 * pgsize ≤ sz₁ := by
      unfold pgsize
      omega
    rw [words_below (htop.congr hmem₃) hsafe₃ htwo hsp hsp4 hstacked.le
        (copyoutWith_true hcopy) hbelow,
      pushArgs_below htop hsafe₂ hlow hend hsz4 hpush' hbelow, hbytes₂ b hbkern,
      hkeeps₁.byte b hbkern hmappedb hmappedb₁]

/-! ## The segments -/

/-- The program headers of kind `ELF_PROG_LOAD`, from an offset on. -/
def segments (file : Executable) : ℕ → ℕ → List ProgHdr
  | 0, _ => []
  | n + 1, off =>
      match file.ph off with
      | none => []
      | some ph =>
          if ph.type.toNat = elfProgLoad then ph :: segments file n ((off + 32) % 2 ^ 32)
          else segments file n ((off + 32) % 2 ^ 32)

/-- The `n`-th page belongs to a segment. -/
def InPages (ph : ProgHdr) (n : ℕ) : Prop :=
  ph.vaddr.toNat / 4096 ≤ n ∧ n * 4096 < ph.vaddr.toNat + ph.memsz.toNat

/-- Two segments have no page in common. -/
def PagesApart (ph ph' : ProgHdr) : Prop := ∀ n, ¬ (InPages ph n ∧ InPages ph' n)

/-- The part of a segment that comes from the file. -/
def InFile (ph : ProgHdr) (b : ℕ) : Prop :=
  ph.vaddr.toNat ≤ b ∧ b < ph.vaddr.toNat + ph.filesz.toNat

instance (ph : ProgHdr) (b : ℕ) : Decidable (InFile ph b) := inferInstanceAs (Decidable (_ ∧ _))

/-- What the memory holds below `sz` when these segments are loaded, the last one first. -/
structure Image (file : Executable) (done : List ProgHdr) (r : Ram) (d sz : ℕ) : Prop where
  /-- The bytes of the segments. -/
  file : ∀ ph ∈ done, ∀ b, InFile ph b → r.userByte d b =
    loaded file.readi ph.off.toNat ph.filesz.toNat (b - ph.vaddr.toNat)
  /-- The others. -/
  zero : ∀ b < pgroundup sz, (∀ ph ∈ done, ¬ InFile ph b) → r.userByte d b = some 0
  /-- All of it is mapped. -/
  mapped : ∀ b < pgroundup sz, (r.userByte d b).isSome
  /-- The segments lie below `sz`. -/
  below : ∀ ph ∈ done, ph.vaddr.toNat % 4096 = 0 ∧ ph.filesz ≤ ph.memsz ∧
    ph.vaddr.toNat + ph.memsz.toNat ≤ sz

/-- One segment: the address space grows to its end, and then the file is read. -/
theorem execLoad_segment {file : Executable} {done : List ProgHdr} {ph : ProgHdr} {sz : ℕ}
    (hlen : ∀ off n, (file.readi off n).length ≤ n) (hsz : sz < kernbase)
    (hspans : Spans r.mem.page d sz) (hsafe : Safe img r d)
    (hfilesz : ¬ ph.memsz < ph.filesz)
    (hwrap : ¬ ph.vaddr + ph.memsz < ph.vaddr) :
    ∃ sz₁ r₁, r.allocuvm img d sz (ph.vaddr + ph.memsz).toNat = some (sz₁, r₁) ∧
      r.Within d r₁ ∧ (sz₁ ≠ 0 → ph.vaddr.toNat % pgsize = 0 →
        sz₁ < kernbase ∧ Spans r₁.mem.page d sz₁ ∧
        ∃ ok r₂, loaduvm d ph.vaddr.toNat file.readi ph.off.toNat ph.filesz.toNat r₁ =
            some (ok, r₂) ∧ r₂.mem = r₁.mem ∧ r₁.Within d r₂ ∧
          (ok = true → Image file done r d sz → (∀ ph' ∈ done, PagesApart ph' ph) →
            Image file (ph :: done) r₂ d sz₁)) := by
  obtain ⟨sz₁, r₁, halloc, hwithin, hkeeps, hgrown⟩ :=
    allocuvm_total (ph.vaddr + ph.memsz).toNat hspans hsz.le hsafe
  refine ⟨sz₁, r₁, halloc, hwithin, fun hzero haligned => ?_⟩
  obtain ⟨hmax, hnew, hspans₁, hfresh⟩ := hgrown hzero
  have hsafe₁ := hwithin.safe hsafe
  have hend : (ph.vaddr + ph.memsz).toNat = ph.vaddr.toNat + ph.memsz.toNat := by
    have hv := ph.vaddr.toNat_lt
    have hm := ph.memsz.toNat_lt
    rw [UInt32.lt_iff_toNat_lt, UInt32.toNat_add] at hwrap
    rw [UInt32.toNat_add]
    omega
  rw [hend] at hmax hnew
  have hle : ph.filesz.toNat ≤ ph.memsz.toNat := by
    rw [UInt32.lt_iff_toNat_lt] at hfilesz
    omega
  have hsz₁ : sz₁ < kernbase := by omega
  have hup : ∀ x, x < kernbase → x ≤ pgroundup x := by
    intro x hx
    unfold kernbase at hx
    unfold pgroundup pgsize
    omega
  have hmapped : ∀ b, ph.vaddr.toNat ≤ b → b < ph.vaddr.toNat + ph.filesz.toNat →
      Mapped r₁.mem.page d b := by
    intro b _ hb
    have h := hup sz₁ hsz₁
    exact (hspans₁ b (by omega)).mpr (by omega)
  have haligned' : ph.vaddr.toNat % 4096 = 0 := haligned
  obtain ⟨ok, r₂, hload, hmem, hchanges, hbytes⟩ := @loaduvmFrom_ram _ _ _ _ ph.off.toNat _ _ _
    hlen hsafe₁ haligned' (Nat.zero_mod _) (by omega) hmapped
  refine ⟨hsz₁, hspans₁, ok, r₂, ?_, hmem, .of_changes hmem hchanges,
    fun hok himage hapart => ?_⟩
  · rw [loaduvm, if_neg (by omega), hload]
  rw [Nat.add_zero] at hbytes
  have hbytes : ∀ b < kernbase, r₂.userByte d b =
      if InFile ph b then loaded file.readi ph.off.toNat ph.filesz.toNat (b - ph.vaddr.toNat)
      else r₁.userByte d b := hbytes hok
  have hold : ∀ b < pgroundup sz, b < kernbase → r₁.userByte d b = r.userByte d b := by
    intro b hb hbkern
    have hmono : pgroundup sz ≤ pgroundup sz₁ := by
      unfold kernbase at hsz hsz₁
      unfold pgroundup pgsize
      omega
    exact hkeeps.byte b hbkern ((hspans b hbkern).mpr hb) ((hspans₁ b hbkern).mpr (by omega))
  have hround : ∀ x, x < kernbase → pgroundup x ≤ kernbase := by
    intro x hx
    unfold kernbase at hx
    unfold pgroundup pgsize kernbase
    omega
  refine ⟨fun ph' hph' b hb => ?_, fun b hb hnone => ?_, fun b hb => ?_, fun ph' hph' => ?_⟩
  · obtain rfl | hph' := List.mem_cons.mp hph'
    · have hb2 := hb.2
      rw [hbytes b (by omega), if_pos hb]
    · obtain ⟨haligned'', hfile', hbelow⟩ := himage.below ph' hph'
      rw [UInt32.le_iff_toNat_le] at hfile'
      have hb2 := hb.2
      have hout : ¬ InFile ph b := by
        rintro ⟨hlo, hhi⟩
        exact hapart ph' hph' (b / 4096)
          ⟨⟨Nat.div_le_div_right hb.1, by omega⟩, ⟨Nat.div_le_div_right hlo, by omega⟩⟩
      have h := hup sz hsz
      rw [hbytes b (by omega), if_neg hout, hold b (by omega) (by omega)]
      exact himage.file ph' hph' b hb
  · have hout : ¬ InFile ph b := hnone ph (List.mem_cons_self ..)
    have hbkern : b < kernbase := hb.trans_le (hround sz₁ hsz₁)
    rw [hbytes b hbkern, if_neg hout]
    by_cases hbsz : b < pgroundup sz
    · rw [hold b hbsz hbkern]
      exact himage.zero b hbsz fun ph' hph' => hnone ph' (List.mem_cons_of_mem _ hph')
    · apply hfresh b hbkern
      · exact fun h => hbsz ((hspans b hbkern).mp h)
      · exact (hspans₁ b hbkern).mpr hb
  · have hmappedb := (hspans₁ b (hb.trans_le (hround sz₁ hsz₁))).mpr hb
    rw [← hmem] at hmappedb
    rw [userByte_of_mapped hmappedb, Option.isSome_some]
  · obtain rfl | hph' := List.mem_cons.mp hph'
    · refine ⟨haligned', ?_, by omega⟩
      rwa [UInt32.le_iff_toNat_le]
    · obtain ⟨haligned'', hfile', hbelow⟩ := himage.below ph' hph'
      exact ⟨haligned'', hfile', by omega⟩

/-- The loop of `exec` over the program headers: it never panics, and when it goes on, the
segments are in memory if they have no page in common. -/
theorem execLoad_ram {file : Executable} (hlen : ∀ off n, (file.readi off n).length ≤ n)
    (n off : ℕ) {sz : ℕ} (done : List ProgHdr) (hsz : sz < kernbase)
    (hspans : Spans r.mem.page d sz) (hsafe : Safe img r d) :
    ∃ res r', r.execLoad img file d n off sz = some (res, r') ∧ r.Within d r' ∧
      ∀ sz', res = some sz' → sz' < kernbase ∧ Spans r'.mem.page d sz' ∧
        (Image file done r d sz → (segments file n off).Pairwise PagesApart →
          (∀ ph' ∈ done, ∀ ph ∈ segments file n off, PagesApart ph' ph) →
          Image file ((segments file n off).reverse ++ done) r' d sz') := by
  induction n generalizing off sz r done with
  | zero =>
    refine ⟨some sz, r, rfl, .refl r d, fun sz' h => ?_⟩
    obtain rfl := Option.some.inj h
    exact ⟨hsz, hspans, fun himage _ _ => himage⟩
  | succ n ih =>
    have hbad : ∀ r₁ : Ram, r.Within d r₁ → ∃ (res : Option ℕ) (r' : Ram),
        some ((none : Option ℕ), r₁) = some (res, r') ∧ r.Within d r' ∧
        ∀ sz', res = some sz' → sz' < kernbase ∧ Spans r'.mem.page d sz' ∧
          (Image file done r d sz → (segments file (n + 1) off).Pairwise PagesApart →
            (∀ ph' ∈ done, ∀ ph ∈ segments file (n + 1) off, PagesApart ph' ph) →
            Image file ((segments file (n + 1) off).reverse ++ done) r' d sz') :=
      fun r₁ hwithin => ⟨none, r₁, rfl, hwithin, fun sz' h => by cases h⟩
    rw [execLoad]
    cases hph : file.ph off with
    | none => exact hbad r (.refl r d)
    | some ph =>
      dsimp only
      by_cases htype : ph.type.toNat ≠ elfProgLoad
      · rw [if_pos htype]
        obtain ⟨res, r', hloop, hwithin, hresult⟩ :=
          ih ((off + 32) % 2 ^ 32) done hsz hspans hsafe
        have hsegments : segments file (n + 1) off = segments file n ((off + 32) % 2 ^ 32) := by
          rw [segments, hph]
          dsimp only
          rw [if_neg htype]
        rw [hsegments]
        exact ⟨res, r', hloop, hwithin, hresult⟩
      rw [if_neg htype]
      push Not at htype
      have hsegments : segments file (n + 1) off =
          ph :: segments file n ((off + 32) % 2 ^ 32) := by
        rw [segments, hph]
        dsimp only
        rw [if_pos htype]
      by_cases hfilesz : ph.memsz < ph.filesz
      · rw [if_pos hfilesz]
        exact hbad r (.refl r d)
      rw [if_neg hfilesz]
      by_cases hwrap : ph.vaddr + ph.memsz < ph.vaddr
      · rw [if_pos hwrap]
        exact hbad r (.refl r d)
      rw [if_neg hwrap]
      obtain ⟨sz₁, r₁, halloc, hwithin₁, hgrown⟩ :=
        @execLoad_segment _ _ _ _ done _ _ hlen hsz hspans hsafe hfilesz hwrap
      rw [halloc, Option.bind_some]
      dsimp only
      by_cases hzero : sz₁ = 0
      · rw [if_pos hzero]
        exact hbad r₁ hwithin₁
      rw [if_neg hzero]
      by_cases haligned : ph.vaddr.toNat % pgsize ≠ 0
      · rw [if_pos haligned]
        exact hbad r₁ hwithin₁
      rw [if_neg haligned]
      push Not at haligned
      obtain ⟨hsz₁, hspans₁, ok, r₂, hload, hmem₂, hwithin₂, himage₂⟩ := hgrown hzero haligned
      have hwithin := hwithin₁.trans hwithin₂
      rw [hload, Option.bind_some]
      dsimp only
      cases ok with
      | false =>
        rw [if_neg Bool.false_ne_true]
        exact hbad r₂ hwithin
      | true =>
        rw [if_pos rfl]
        obtain ⟨res, r', hloop, hwithin', hresult⟩ := ih ((off + 32) % 2 ^ 32) (ph :: done) hsz₁
          (r := r₂) (by rwa [hmem₂]) (hwithin.safe hsafe)
        refine ⟨res, r', hloop, hwithin.trans hwithin', fun sz' h => ?_⟩
        obtain ⟨hsz', hspans', himage'⟩ := hresult sz' h
        refine ⟨hsz', hspans', fun himage hpairwise hapart => ?_⟩
        rw [hsegments] at hpairwise hapart ⊢
        obtain ⟨hhead, htail⟩ := List.pairwise_cons.mp hpairwise
        have hnext := himage₂ rfl himage fun ph' hph' => hapart ph' hph' ph (List.mem_cons_self ..)
        have hlast := himage' hnext htail fun ph' hph' => ?_
        · rwa [List.reverse_cons, List.append_assoc]
        · obtain rfl | hph' := List.mem_cons.mp hph'
          · exact hhead
          · exact fun ph₁ hph₁ => hapart ph' hph' ph₁ (List.mem_cons_of_mem _ hph₁)

/-! ## The new address space and the old one -/

/-- The new page directory after `setupkvm`, and what `exec` has built since. -/
structure Building (r : Ram) (d : ℕ) (r₁ r₂ : Ram) : Prop where
  /-- `setupkvm` writes no bytes. -/
  byte : r₁.byte = r.byte
  /-- Its pages come from the free list. -/
  moves : Moves r.mem 0 r₁.mem (dirPages r₁.mem.page d)
  /-- What follows stays in the address space. -/
  within : r₁.Within d r₂

theorem Building.all (hbuilding : Building r d r' r'') :
    Moves r.mem 0 r''.mem (dirPages r''.mem.page d) ∧ Changes r.mem.free r r'' := by
  have hchanges := hbuilding.within.changes
  rw [hbuilding.moves.total, add_zero] at hchanges
  exact ⟨hbuilding.moves.trans hbuilding.within.moves,
    (Changes.of_eq hbuilding.byte).trans hchanges⟩

theorem Building.safe (hbuilding : Building r d r' r'') (hfree : Sound img r.mem.free) :
    Safe img r'' d := by
  unfold Safe
  rwa [hbuilding.all.1.total, add_zero]

/-- `bad`: the new address space is given back. -/
theorem Building.freed {old : ℕ} (hbuilding : Building r d r' r'') (hsafe : Safe img r old) :
    ∃ r₃, r''.freevm img d = some r₃ ∧ (r₃.mem.free : Multiset ℕ) = r.mem.free ∧
      Unchanged r old r₃ := by
  have hfree : Sound img r.mem.free := hsafe.mono (Multiset.le_add_right _ _)
  obtain ⟨hmoves, hchanges⟩ := hbuilding.all
  obtain ⟨r₃, hcall, hmoves₃, hchanges₃⟩ := freevm_ram (hbuilding.safe hfree)
  rw [hmoves.total, add_zero] at hchanges₃
  have hall := hmoves.trans hmoves₃
  refine ⟨r₃, hcall, ?_, unchanged_of_moves hsafe hall (hchanges.trans hchanges₃)⟩
  simpa using hall.total

/-- The commit: the old address space is given back, and the new one keeps its bytes. -/
theorem Building.committed {old : ℕ} (hbuilding : Building r d r' r'') (hsafe : Safe img r old) :
    ∃ r₃, r''.freevm img old = some r₃ ∧ ∀ b < kernbase, r₃.userByte d b = r''.userByte d b := by
  obtain ⟨hmoves, -⟩ := hbuilding.all
  have hold : ∀ f ∈ dirPages r.mem.page old, r''.mem.page f = r.mem.page f := fun f hf =>
    hmoves.page_of_mem_rest (by simpa using hsafe.nodup) hf
  have hsound : Sound img (r''.mem.free + dirPages r''.mem.page old + dirPages r''.mem.page d) := by
    rw [add_right_comm, hmoves.total, add_zero, dirPages_congr hold]
    exact hsafe
  obtain ⟨r₃, hcall, hmoves₃, hchanges₃⟩ :=
    freevm_ram (r := r'') (d := old) (hsound.mono (Multiset.le_add_right _ _))
  exact ⟨r₃, hcall, (kept_of_moves hsound hmoves₃ hchanges₃).2⟩

/-! ## The bytes of the file -/

theorem fileRead_length (data : List UInt8) (off n : ℕ) : (fileRead data off n).length ≤ n := by
  unfold fileRead
  split_ifs
  · exact Nat.zero_le n
  · exact List.length_take_le n _

/-- A byte that `readi` copies is one of the file. -/
theorem fileRead_getElem? {data : List UInt8} {off n k : ℕ}
    (hsome : ((fileRead data off n)[k]?).isSome) :
    (fileRead data off n)[k]? = data[off + k]? ∧ off + k < data.length := by
  unfold fileRead at hsome ⊢
  split_ifs at hsome ⊢ with hbad
  · simp at hsome
  · obtain ⟨x, hx⟩ := Option.isSome_iff_exists.mp hsome
    have hlt : k < n := by
      have h := (List.getElem?_eq_some_iff.mp hx).1
      exact h.trans_le (List.length_take_le n _)
    rw [List.getElem?_take_of_lt hlt, List.getElem?_drop] at hx ⊢
    exact ⟨rfl, (List.getElem?_eq_some_iff.mp hx).1⟩

/-- The offsets at which a complete segment is read do not wrap. -/
theorem offset_lt {data : List UInt8} {off sz : ℕ} (hdata : data.length < 2 ^ 32)
    (hoff : off < 2 ^ 32) (hsome : ∀ k < sz, (loaded (fileRead data) off sz k).isSome) (j : ℕ)
    (hj : j * 4096 < sz) : off + j * 4096 < 2 ^ 32 := by
  induction j with
  | zero => omega
  | succ j ih =>
    rw [Nat.succ_mul] at hj ⊢
    have hlast : j * 4096 + 4095 < sz := lt_of_le_of_lt (Nat.add_le_add_left (by norm_num) _) hj
    have hprev : off + j * 4096 < 2 ^ 32 := ih (lt_of_le_of_lt (Nat.le_add_right _ _) hj)
    have hbyte := hsome (j * 4096 + 4095) hlast
    have hdiv : (j * 4096 + 4095) / 4096 * 4096 = j * 4096 := by omega
    have hmod : (j * 4096 + 4095) % 4096 = 4095 := by omega
    rw [loaded, hdiv, hmod, Nat.mod_eq_of_lt hprev] at hbyte
    have hlt : off + j * 4096 + 4095 < data.length := (fileRead_getElem? hbyte).2
    rw [← Nat.add_assoc]
    exact lt_of_le_of_lt (Nat.succ_le_of_lt hlt) hdata

/-- A segment that has been read completely holds the bytes of the file. -/
theorem loaded_fileRead {data : List UInt8} {off sz k : ℕ} (hdata : data.length < 2 ^ 32)
    (hoff : off < 2 ^ 32) (hsome : ∀ k < sz, (loaded (fileRead data) off sz k).isSome)
    (hk : k < sz) :
    loaded (fileRead data) off sz k = data[off + k]? ∧ off + k < data.length := by
  have hno := offset_lt hdata hoff hsome (k / 4096) (by clear hsome; omega)
  have hthis := hsome k hk
  clear hsome
  rw [loaded, Nat.mod_eq_of_lt hno] at hthis ⊢
  obtain ⟨heq, hlt⟩ := fileRead_getElem? hthis
  have hsum : off + k / 4096 * 4096 + k % 4096 = off + k := by
    clear heq hlt hthis
    omega
  rw [hsum] at heq hlt
  exact ⟨heq, hlt⟩

/-! ## The whole call -/

/-- The segments of a file. -/
def segmentsOf (c : List UInt8) : List ProgHdr :=
  match (executable c).elf with
  | none => []
  | some elf => segments (executable c) elf.phnum.toNat elf.phoff.toNat

variable {ρ : Type} {s s' : ExecState ρ}

/-- The calls of `exec`: what is taken is released, once. -/
def balanced (file : Option (List UInt8)) : List FsCall :=
  match file with
  | none => [.beginOp, .namei, .endOp]
  | some _ => [.beginOp, .namei, .ilock, .iunlockput, .endOp]

/-- Nothing is left of a call that fails. -/
structure Failed (file : Option (List UInt8)) (s s' : ExecState ρ) : Prop where
  /-- The page directory, the size, the trap frame and the name of the caller. -/
  proc : s'.proc = s.proc
  /-- The page tables and the memory of the caller. -/
  unchanged : Unchanged s.ram s.proc.pgdir s'.ram
  /-- The pages on the free list. -/
  free : (s'.ram.mem.free : Multiset ℕ) = s.ram.mem.free
  /-- The inode and the log. -/
  calls : s'.calls = s.calls ++ balanced file

/-- The image of a call that succeeds. -/
structure Committed (c : List UInt8) (s' : ExecState ρ) : Prop where
  /-- The entry point. -/
  eip : s'.proc.tf.eip = (elfEntry c).toNat
  /-- The segments, and the zeroes around them. -/
  image : (segmentsOf c).Pairwise PagesApart →
    ∃ sz, s'.proc.sz = pgroundup sz + 2 * pgsize ∧ sz < kernbase ∧
      Image (executable c) (segmentsOf c).reverse s'.ram s'.proc.pgdir sz

theorem release_calls (s : ExecState ρ) :
    s.release.calls = s.calls ++ [.iunlockput, .endOp] := by
  rw [ExecState.release, ExecState.call, ExecState.call, List.append_assoc]
  rfl

/-- `exec` returns: it fails and leaves nothing, or it has built the image. -/
theorem execCall_spec (file : Option (List UInt8)) (path : List UInt8) (argv : List (List UInt8))
    (hsafe : Safe img s.ram s.proc.pgdir) :
    ∃ ret s', execCall img true file path argv s = some (ret, s') ∧
      (ret = -1 ∧ Failed file s s' ∨ ret = 0 ∧ ∃ c, file = some c ∧ Committed c s') := by
  have hfree : Sound img s.ram.mem.free := hsafe.mono (Multiset.le_add_right _ _)
  have hsame : Unchanged s.ram s.proc.pgdir s.ram := fun f _ => ⟨rfl, fun _ _ => rfl⟩
  have hcalls : ∀ s₁ : ExecState ρ, s₁.calls = s.calls ++ [.beginOp, .namei, .ilock] →
      ∀ c, s₁.release.calls = s.calls ++ balanced (some c) := by
    intro s₁ hs₁ c
    rw [release_calls, hs₁, List.append_assoc]
    rfl
  have htaken : ((((s.call .beginOp).call .namei).call .ilock)).calls =
      s.calls ++ [.beginOp, .namei, .ilock] := by
    simp [ExecState.call]
  cases file with
  | none =>
    refine ⟨-1, _, rfl, .inl ⟨rfl, rfl, hsame, rfl, ?_⟩⟩
    simp [ExecState.call, balanced]
  | some c =>
    rw [execCall]
    dsimp only
    generalize hs₁ : ((s.call .beginOp).call .namei).call .ilock = s₁ at htaken ⊢
    have hram : s₁.ram = s.ram := by rw [← hs₁]; rfl
    have hproc : s₁.proc = s.proc := by rw [← hs₁]; rfl
    cases helf : (executable c).elf with
    | none =>
      exact ⟨-1, s₁.release, rfl, .inl ⟨rfl, hproc, hram ▸ hsame, by rw [← hram]; rfl,
        hcalls s₁ htaken c⟩⟩
    | some elf =>
      dsimp only
      by_cases hmagic : elf.magic.toNat ≠ elfMagic
      · rw [if_pos hmagic]
        exact ⟨-1, s₁.release, rfl, .inl ⟨rfl, hproc, hram ▸ hsame, by rw [← hram]; rfl,
          hcalls s₁ htaken c⟩⟩
      rw [if_neg hmagic, hram]
      obtain ⟨d, r₁, hsetup, hbyte, hmoves₁, hkernel⟩ | ⟨r₁, hsetup, hchanges, hmoves⟩ :=
        setupkvm_ram hfree
      · rw [hsetup, Option.bind_some]
        dsimp only
        have hspans : Spans r₁.mem.page d 0 := fun b hb => by
          have hzero : pgroundup 0 = 0 := by decide
          rw [hzero]
          exact ⟨fun h => absurd h (hkernel.not_mapped hb), by omega⟩
        have hstart : Building s.ram d r₁ r₁ := ⟨hbyte, hmoves₁, .refl r₁ d⟩
        have hsafe₁ := hstart.safe hfree
        have hprivate₁ : KernelPrivate r₁.mem.page d := by
          apply setupkvm_private hfree
          rw [← setupkvm_mem, hsetup]
          rfl
        obtain ⟨res, r₂, hload, hwithin₂, hloaded⟩ := @execLoad_ram _ _ _ (executable c)
          (fileRead_length c) elf.phnum.toNat elf.phoff.toNat _ [] (by unfold kernbase; omega)
          hspans hsafe₁
        have hbuilding₂ : Building s.ram d r₁ r₂ := ⟨hbyte, hmoves₁, hwithin₂⟩
        rw [hload, Option.bind_some]
        cases res with
        | none =>
          obtain ⟨r₃, hfreevm, hback, hunchanged⟩ := hbuilding₂.freed hsafe
          dsimp only
          rw [hfreevm, Option.map_some]
          exact ⟨-1, _, rfl, .inl ⟨rfl, hproc, hunchanged, hback,
            hcalls { s₁ with ram := r₃ } htaken c⟩⟩
        | some sz₀ =>
          obtain ⟨hsz₀, hspans₂, himage₂⟩ := hloaded sz₀ rfl
          obtain ⟨res, r₃, hstack, hwithin₃, hstacked⟩ := execStackWith_ram argv hsz₀ hspans₂
            (hbuilding₂.safe hfree) (hprivate₁.kept hwithin₂.kernel)
          have hbuilding₃ : Building s.ram d r₁ r₃ := ⟨hbyte, hmoves₁, hwithin₂.trans hwithin₃⟩
          dsimp only
          rw [hstack, Option.bind_some]
          obtain _ | ⟨sz, sp⟩ := res
          · obtain ⟨r₄, hfreevm, hback, hunchanged⟩ := hbuilding₃.freed hsafe
            dsimp only
            rw [hfreevm, Option.map_some]
            exact ⟨-1, _, rfl, .inl ⟨rfl, hproc, hunchanged, hback, hcalls s₁ htaken c⟩⟩
          · obtain ⟨r₄, hfreevm, hkept⟩ := hbuilding₃.committed hsafe
            obtain ⟨hsize, hhigh, hbelow⟩ := hstacked (sz, sp) rfl
            have hpgdir : s₁.release.proc.pgdir = s.proc.pgdir := congrArg Caller.pgdir hproc
            dsimp only
            rw [hpgdir, hfreevm, Option.map_some]
            refine ⟨0, _, rfl, .inr ⟨rfl, c, rfl, rfl, fun hapart => ⟨sz₀, hsize, hsz₀, ?_⟩⟩⟩
            dsimp only
            have hsegments : segmentsOf c =
                segments (executable c) elf.phnum.toNat elf.phoff.toNat := by
              rw [segmentsOf, helf]
            rw [hsegments] at hapart ⊢
            have hnothing : Image (executable c) [] r₁ d 0 := by
              have hzero : pgroundup 0 = 0 := by decide
              refine ⟨fun ph h => ?_, fun b hb => ?_, fun b hb => ?_, fun ph h => ?_⟩
              · cases h
              · omega
              · omega
              · cases h
            have himage := himage₂ hnothing hapart fun ph h => by cases h
            rw [List.append_nil] at himage
            have hmax : pgroundup sz₀ < kernbase := by
              dsimp only at hsize hhigh
              omega
            have hbytes : ∀ b < pgroundup sz₀, r₄.userByte d b = r₂.userByte d b := fun b hb => by
              rw [hkept b (by omega), hbelow b hb]
            have hup : sz₀ ≤ pgroundup sz₀ := by
              unfold kernbase at hsz₀
              unfold pgroundup pgsize
              omega
            refine ⟨fun ph hph b hb => ?_, fun b hb hnone => ?_, fun b hb => ?_, himage.below⟩
            · obtain ⟨-, hfilesz, hend⟩ := himage.below ph hph
              rw [UInt32.le_iff_toNat_le] at hfilesz
              have hb2 := hb.2
              rw [hbytes b (by omega), himage.file ph hph b hb]
            · rw [hbytes b hb, himage.zero b hb hnone]
            · rw [hbytes b hb]
              exact himage.mapped b hb
      · rw [hsetup, Option.bind_some]
        refine ⟨-1, _, rfl, .inl ⟨rfl, hproc, unchanged_of_moves hsafe hmoves hchanges, ?_, ?_⟩⟩
        · have h := hmoves.total
          rwa [add_zero, add_zero] at h
        · exact hcalls { s₁ with ram := r₁ } htaken c

/-- **A failed `exec` changes nothing.** Wherever it fails, the caller is as before, the free
list has the pages it had, each once, and the inode and the log are released. -/
theorem exec_failure {file : Option (List UInt8)} {path : List UInt8} {argv : List (List UInt8)}
    (hsafe : Safe img s.ram s.proc.pgdir)
    (hcall : execCall img true file path argv s = some (-1, s')) :
    Failed file s s' ∧ s'.ram.mem.free.Nodup := by
  obtain ⟨ret, s₁, hcall₁, hresult⟩ := execCall_spec file path argv hsafe
  rw [hcall] at hcall₁
  obtain ⟨rfl, rfl⟩ := Prod.mk.inj (Option.some.inj hcall₁)
  obtain ⟨-, hfailed⟩ | ⟨h, -⟩ := hresult
  · refine ⟨hfailed, ?_⟩
    rw [← Multiset.coe_nodup, hfailed.free]
    exact (hsafe.mono (Multiset.le_add_right _ _)).nodup
  · cases h

theorem execCall_mono {lenient : Bool} {file : Option (List UInt8)} {path : List UInt8}
    {argv : List (List UInt8)} {res : ℤ × ExecState ρ}
    (hcall : execCall img lenient file path argv s = some res) :
    execCall img true file path argv s = some res := by
  cases file with
  | none => exact hcall
  | some c =>
    rw [execCall] at hcall ⊢
    dsimp only at hcall ⊢
    cases helf : (executable c).elf with
    | none => rwa [helf] at hcall
    | some elf =>
      rw [helf] at hcall
      dsimp only at hcall ⊢
      split_ifs at hcall ⊢
      · exact hcall
      · obtain ⟨⟨pgdir, r₁⟩, hsetup, hcall⟩ := Option.bind_eq_some_iff.mp hcall
        rw [hsetup, Option.bind_some]
        cases pgdir with
        | none => exact hcall
        | some d =>
          dsimp only at hcall ⊢
          obtain ⟨⟨res₂, r₂⟩, hload, hcall⟩ := Option.bind_eq_some_iff.mp hcall
          rw [hload, Option.bind_some]
          cases res₂ with
          | none => exact hcall
          | some sz =>
            dsimp only at hcall ⊢
            obtain ⟨res₃, hstack, hcall⟩ := Option.bind_eq_some_iff.mp hcall
            rw [execStackWith_mono hstack, Option.bind_some]
            exact hcall

/-- **`exec` loads the image it was given.** It never panics. If it succeeds on a file whose
segments have no page in common, the new address space holds the bytes of every segment, and
zeroes everywhere else below the page under the stack. -/
theorem exec_loads_image (hsafe : Safe img s.ram s.proc.pgdir) :
    (∀ file path argv, execCall img true file path argv s ≠ none) ∧
      ∀ lenient data path argv s', data.length < 2 ^ 32 →
        execCall img lenient (some data) path argv s = some (0, s') →
          s'.proc.tf.eip = (elfEntry data).toNat ∧
          ((segmentsOf data).Pairwise PagesApart →
            (∀ ph ∈ segmentsOf data, ∀ k < ph.filesz.toNat,
              ph.off.toNat + k < data.length ∧
                s'.ram.userByte s'.proc.pgdir (ph.vaddr.toNat + k) = data[ph.off.toNat + k]?) ∧
            (∀ ph ∈ segmentsOf data, ∀ k, ph.filesz.toNat ≤ k → k < ph.memsz.toNat →
              s'.ram.userByte s'.proc.pgdir (ph.vaddr.toNat + k) = some 0) ∧
            ∀ b < s'.proc.sz - 2 * pgsize, (∀ ph ∈ segmentsOf data, ¬ InFile ph b) →
              s'.ram.userByte s'.proc.pgdir b = some 0) := by
  refine ⟨fun file path argv => ?_, fun lenient data path argv s' hdata hcall => ?_⟩
  · obtain ⟨ret, s₁, hcall, -⟩ := execCall_spec file path argv hsafe
    rw [hcall]
    simp
  · obtain ⟨ret, s₁, hcall₁, hresult⟩ := execCall_spec (some data) path argv hsafe
    rw [execCall_mono hcall] at hcall₁
    obtain ⟨rfl, rfl⟩ := Prod.mk.inj (Option.some.inj hcall₁)
    obtain ⟨h, -⟩ | ⟨-, c, hc, hcommitted⟩ := hresult
    · cases h
    obtain rfl := Option.some.inj hc
    refine ⟨hcommitted.eip, fun hapart => ?_⟩
    obtain ⟨sz, hsize, hsz, himage⟩ := hcommitted.image hapart
    have hup : sz ≤ pgroundup sz := by
      unfold kernbase at hsz
      unfold pgroundup pgsize
      omega
    have hguard : s'.proc.sz - 2 * pgsize = pgroundup sz := by omega
    refine ⟨fun ph hph k hk => ?_, fun ph hph k hk hk' => ?_, fun b hb hnone => ?_⟩
    · obtain ⟨-, hfilesz, hend⟩ := himage.below ph (List.mem_reverse.mpr hph)
      rw [UInt32.le_iff_toNat_le] at hfilesz
      have hread : ∀ k < ph.filesz.toNat, s'.ram.userByte s'.proc.pgdir (ph.vaddr.toNat + k) =
          loaded (fileRead data) ph.off.toNat ph.filesz.toNat k := by
        intro k hk
        have hin : InFile ph (ph.vaddr.toNat + k) := ⟨Nat.le_add_right _ _, by omega⟩
        have h := himage.file ph (List.mem_reverse.mpr hph) _ hin
        rwa [Nat.add_sub_cancel_left] at h
      have hsome : ∀ k < ph.filesz.toNat,
          (loaded (fileRead data) ph.off.toNat ph.filesz.toNat k).isSome := by
        intro k hk
        rw [← hread k hk]
        exact himage.mapped _ (by omega)
      obtain ⟨heq, hlt⟩ := loaded_fileRead hdata ph.off.toNat_lt hsome hk
      exact ⟨hlt, (hread k hk).trans heq⟩
    · obtain ⟨-, -, hend⟩ := himage.below ph (List.mem_reverse.mpr hph)
      refine himage.zero _ (by omega) fun ph' hph' hin => ?_
      obtain ⟨-, hfilesz', -⟩ := himage.below ph' hph'
      rw [UInt32.le_iff_toNat_le] at hfilesz'
      obtain ⟨hlow', hhigh'⟩ := hin
      by_cases hsame : ph' = ph
      · rw [hsame] at hhigh'
        omega
      · have hsymm : Std.Symm PagesApart := ⟨fun x y h n hn => h n hn.symm⟩
        refine hapart.forall (List.mem_reverse.mp hph') hph hsame
          ((ph.vaddr.toNat + k) / 4096) ⟨⟨?_, ?_⟩, ?_, ?_⟩
        · exact Nat.div_le_div_right hlow'
        · omega
        · exact Nat.div_le_div_right (Nat.le_add_right _ _)
        · omega
    · rw [hguard] at hb
      exact himage.zero b hb fun ph hph => hnone ph (List.mem_reverse.mp hph)

/-! ## Without the caller -/

theorem copyoutWith_false (r : Ram) (d va : ℕ) (p : List UInt8) :
    r.copyoutWith false d va p = r.copyout d va p := by
  induction hn : p.length using Nat.strong_induction_on generalizing r va p with
  | _ n ih =>
    subst hn
    rw [copyoutWith, copyout, if_neg Bool.false_ne_true, Option.or_none]
    by_cases hlen : 0 < p.length
    · rw [dif_pos hlen, dif_pos hlen]
      cases uva2ka r.mem d (pgrounddown va) with
      | none => rw [Option.bind_none, Option.bind_none]
      | some pa0 =>
        rw [Option.bind_some, Option.bind_some]
        dsimp only
        rw [ih _ ?_ _ _ _ rfl]
        rw [List.length_drop]
        unfold pgrounddown pgsize
        omega
    · rw [dif_neg hlen, dif_neg hlen]

theorem pushArgsWith_false (r : Ram) (d : ℕ) (argv : List (List UInt8)) (argc sp : ℕ) :
    r.pushArgsWith false d argv argc sp = r.pushArgs d argv argc sp := by
  induction argv generalizing argc sp r with
  | nil => rfl
  | cons s argv ih =>
    rw [pushArgsWith, pushArgs]
    simp only [copyoutWith_false, ih]

theorem execStackWith_false (r : Ram) (d sz : ℕ) (argv : List (List UInt8)) :
    r.execStackWith false img d sz argv = r.execStack img d sz argv := by
  rw [execStackWith]
  simp only [copyoutWith_false, pushArgsWith_false]
  rfl

/-- What `exec` does to the memory, and what the caller goes on with, do not depend on the rest
of the state. -/
theorem execCall_ram (file : Option (List UInt8)) (path : List UInt8) (argv : List (List UInt8))
    (s : ExecState ρ) :
    (execCall img false file path argv s).map (fun x =>
        (if x.1 = 0 then some (x.2.proc.pgdir, x.2.proc.sz, x.2.proc.tf.esp) else none,
          x.2.ram)) =
      s.ram.exec img (file.map executable) argv s.proc.pgdir := by
  cases file with
  | none => rfl
  | some c =>
    rw [execCall, Option.map_some, exec]
    dsimp only
    cases (executable c).elf with
    | none => rfl
    | some elf =>
      dsimp only
      split_ifs
      · rfl
      · have hram : ((((s.call .beginOp).call .namei).call .ilock)).ram = s.ram := rfl
        rw [hram]
        obtain _ | ⟨_ | d, r₁⟩ := s.ram.setupkvm img
        · rfl
        · rfl
        · rw [Option.bind_some, Option.bind_some]
          dsimp only
          rw [execImage]
          obtain _ | ⟨_ | sz, r₂⟩ :=
            execLoad img (executable c) d elf.phnum.toNat elf.phoff.toNat 0 r₁
          · rfl
          · rw [Option.bind_some, Option.bind_some, Option.bind_some]
            dsimp only
            cases r₂.freevm img d <;> rfl
          · rw [Option.bind_some, Option.bind_some]
            dsimp only
            rw [execStackWith_false]
            obtain _ | ⟨_ | ⟨sz', sp⟩, r₃⟩ := r₂.execStack img d sz argv
            · rfl
            · rw [Option.bind_some, Option.bind_some]
              dsimp only
              cases r₃.freevm img d <;> rfl
            · rw [Option.bind_some, Option.bind_some]
              dsimp only
              have hpgdir : (((((s.call .beginOp).call .namei).call .ilock)).release).proc.pgdir =
                s.proc.pgdir := rfl
              rw [hpgdir]
              cases r₃.freevm img s.proc.pgdir <;> rfl

/-! ## A program that is loaded -/

/-- A program with one segment in the first page: it is loaded, unless the file ends before the
segment does. -/
theorem execLoad_onePage {file : Executable} {off : ℕ} {ph : ProgHdr}
    (hph : file.ph off = some ph) (htype : ph.type.toNat = elfProgLoad) (hvaddr : ph.vaddr = 0)
    (hfilesz : ph.filesz ≤ ph.memsz) (hpos : 0 < ph.filesz.toNat) (hmemsz : ph.memsz.toNat ≤ 4096)
    (hspans : Spans r.mem.page d 0) (hsafe : Safe img r d) (hfree : 2 ≤ r.mem.free.length) :
    ∃ r', r.execLoad img file d 1 off 0 = some
        (if (file.readi ph.off.toNat ph.filesz.toNat).length = ph.filesz.toNat then
          some ph.memsz.toNat else none, r') ∧
      Safe img r' d ∧ Spans r'.mem.page d ph.memsz.toNat ∧
      r.mem.free.length ≤ r'.mem.free.length + 2 := by
  have hle : ph.filesz.toNat ≤ ph.memsz.toNat := UInt32.le_iff_toNat_le.mp hfilesz
  have hkern : ph.memsz.toNat < kernbase := hmemsz.trans_lt (by decide)
  obtain ⟨r₁, halloc, hsafe₁, hspans₁, hfree₁, -⟩ := @allocuvm_enough img r d 0 ph.memsz.toNat 1
    hspans hsafe (by omega) (Nat.zero_le _) hkern (by omega) (by omega)
  have hmapped : Mapped r₁.mem.page d 0 := by
    refine (hspans₁ 0 (by decide)).mpr ?_
    unfold pgroundup pgsize
    omega
  generalize hdata : file.readi ph.off.toNat ph.filesz.toNat = data
  obtain ⟨r₂, hload, hmem₂⟩ : ∃ r₂, loaduvm d 0 file.readi ph.off.toNat ph.filesz.toNat r₁ =
      some (decide (data.length = ph.filesz.toNat), r₂) ∧ r₂.mem = r₁.mem := by
    have hcount : (if ph.filesz.toNat - 0 < pgsize then ph.filesz.toNat - 0 else pgsize) =
        ph.filesz.toNat := by
      unfold pgsize
      split_ifs <;> omega
    have hoff : (ph.off.toNat + 0) % 2 ^ 32 = ph.off.toNat := Nat.mod_eq_of_lt ph.off.toNat_lt
    rw [loaduvm, if_neg (by decide), loaduvmFrom, dif_pos hpos, Nat.add_zero, walkpgdir_false,
      if_pos hmapped.1]
    dsimp only
    rw [hcount, hoff, hdata]
    refine ⟨r₁.store (p2v (r₁.mem.page (pageTable r₁.mem.page d (pdx 0)) (ptx 0)).addr) data, ?_,
      store_mem _ _ _⟩
    by_cases hall : data.length = ph.filesz.toNat
    · rw [if_neg (not_not.mpr hall), decide_eq_true hall, loaduvmFrom, dif_neg]
      unfold pgsize
      omega
    · rw [if_pos hall, decide_eq_false hall]
  unfold Safe at hsafe₁ ⊢
  rw [← hmem₂] at hsafe₁ hspans₁ hfree₁
  refine ⟨r₂, ?_, hsafe₁, hspans₁, hfree₁⟩
  have hzero : (0 : UInt32) + ph.memsz = ph.memsz := UInt32.zero_add _
  rw [execLoad, hph]
  dsimp only
  rw [if_neg (not_not.mpr htype), if_neg (UInt32.not_lt.mpr hfilesz), hvaddr, hzero,
    if_neg (UInt32.not_lt.mpr (UInt32.zero_le)), halloc, Option.bind_some]
  dsimp only
  rw [if_neg (by omega), if_neg (by decide)]
  change (loaduvm d 0 file.readi ph.off.toNat ph.filesz.toNat r₁).bind _ = _
  rw [hload, Option.bind_some]
  by_cases hall : data.length = ph.filesz.toNat
  · rw [if_pos hall, decide_eq_true hall]
    rfl
  · rw [if_neg hall, decide_eq_false hall]
    rfl

/-- A program of one segment with three bytes in the file and eight in memory, whose entry point
is its second byte, up to the first byte of the segment. -/
def programStart : List UInt8 :=
  [0x7F, 0x45, 0x4C, 0x46] ++ List.replicate 20 0 ++ [1, 0, 0, 0, 52, 0, 0, 0] ++
    List.replicate 12 0 ++ [1, 0] ++ List.replicate 6 0 ++
    [1, 0, 0, 0, 84, 0, 0, 0] ++ List.replicate 8 0 ++ [3, 0, 0, 0, 8, 0, 0, 0] ++
    List.replicate 8 0

/-- The program. -/
def someProgram : List UInt8 := programStart ++ [0x90, 0xEB, 0xFE]

/-- The program without its last byte. -/
def cutProgram : List UInt8 := programStart ++ [0x90, 0xEB]

/-- A caller with some memory. -/
def someCaller (r : Ram) (old : ℕ) : ExecState Unit := ⟨r, ⟨old, 4096, ⟨0, 0, ()⟩, []⟩, []⟩

/-- A segment of three bytes of the file and five zeroes is read back. -/
theorem exec_loads_image_someProgram : ∃ (r : Ram) (old : ℕ) (s' : ExecState Unit),
    execCall smallKernel false (some someProgram) [47, 105] [[105], [104, 105]]
        (someCaller r old) = some (0, s') ∧ s'.proc.tf.eip = 1 ∧
      (∀ k < 3, s'.ram.userByte s'.proc.pgdir k = [0x90, 0xEB, 0xFE][k]?) ∧
      ∀ k, 3 ≤ k → k < 8 → s'.ram.userByte s'.proc.pgdir k = some 0 := by
  obtain ⟨r, old, hsafe, hfree⟩ := exists_safe
  have helf : (executable someProgram).elf = some ⟨0x464C457F, 52, 1⟩ := rfl
  have hph : (executable someProgram).ph 52 = some ⟨1, 84, 0, 3, 8⟩ := rfl
  obtain ⟨d, sz, sp, r', hcall⟩ := @exec_succeeds _ _ [[105], [104, 105]] _ _ _ helf (by decide)
    hsafe hfree fun d r₁ hspans hsafe₁ hfree₁ => by
      obtain ⟨r₂, hload, hsafe₂, hspans₂, hfree₂⟩ :=
        execLoad_onePage hph (by decide) rfl (by decide) (by decide) (by decide) hspans hsafe₁
          (by omega)
      obtain ⟨sp, r₃, hstack⟩ := @execStack_fits _ r₂ d [[105], [104, 105]] 8 (by decide) hspans₂
        hsafe₂ (by omega) (by decide) (by decide)
      refine ⟨pgroundup 8 + 8192, sp, r₃, ?_⟩
      rw [execImage]
      change (execLoad smallKernel (executable someProgram) d 1 52 0 r₁).bind _ = _
      rw [hload, Option.bind_some]
      exact hstack
  have hram := @execCall_ram smallKernel _ (some someProgram) [47, 105] [[105], [104, 105]]
    (someCaller r old)
  have hcaller : (someCaller r old).ram.exec smallKernel (some (executable someProgram))
      [[105], [104, 105]] (someCaller r old).proc.pgdir = some (some (d, sz, sp), r') := hcall
  rw [Option.map_some, hcaller, Option.map_eq_some_iff] at hram
  obtain ⟨⟨ret, s'⟩, hexec, heq⟩ := hram
  dsimp only at heq
  have hret : ret = 0 := by
    by_contra hne
    rw [if_neg hne] at heq
    cases heq
  subst hret
  have hloads := @exec_loads_image smallKernel _ (someCaller r old) hsafe
  obtain ⟨heip, himage⟩ := hloads.2 false someProgram [47, 105] _ s' (by decide) hexec
  have hsegments : segmentsOf someProgram = [⟨1, 84, 0, 3, 8⟩] := rfl
  rw [hsegments] at himage
  obtain ⟨hfile, hzero, -⟩ := himage (List.pairwise_singleton _ _)
  have hstart : (⟨1, 84, 0, 3, 8⟩ : ProgHdr).vaddr.toNat = 0 := rfl
  refine ⟨r, old, s', hexec, heip, fun k hk => ?_, fun k hk hk' => ?_⟩
  · have hbyte := (hfile _ (List.mem_singleton_self _) k hk).2
    rw [hstart, Nat.zero_add] at hbyte
    rw [hbyte]
    interval_cases k <;> rfl
  · have hbyte := hzero _ (List.mem_singleton_self _) k hk hk'
    rwa [hstart, Nat.zero_add] at hbyte

/-- The file ends inside its segment: the load fails after a page has been mapped, and the pages are
back on the free list. -/
theorem exec_failure_cutProgram : ∃ (r : Ram) (old d : ℕ) (r₁ r₂ : Ram) (s' : ExecState Unit),
    r.setupkvm smallKernel = some (some d, r₁) ∧
      r₁.execLoad smallKernel (executable cutProgram) d 1 52 0 = some (none, r₂) ∧
      Mapped r₂.mem.page d 0 ∧
      execCall smallKernel true (some cutProgram) [47, 105] [[105]] (someCaller r old) =
        some (-1, s') ∧
      s'.calls = [.beginOp, .namei, .ilock, .iunlockput, .endOp] ∧
      s'.proc = (someCaller r old).proc ∧ (s'.ram.mem.free : Multiset ℕ) = r.mem.free ∧
      s'.ram.mem.free.Nodup := by
  obtain ⟨r, old, hsafe, hfree⟩ := exists_safe
  have helf : (executable cutProgram).elf = some ⟨0x464C457F, 52, 1⟩ := rfl
  have hph : (executable cutProgram).ph 52 = some ⟨1, 84, 0, 3, 8⟩ := rfl
  obtain ⟨d, r₁, hsetup, hspans, hsafe₁, hfree₁⟩ := setupkvm_enough hsafe hfree
  obtain ⟨r₂, hload, -, hspans₂, -⟩ :=
    execLoad_onePage hph (by decide) rfl (by decide) (by decide) (by decide) hspans hsafe₁
      (by omega)
  have hload : r₁.execLoad smallKernel (executable cutProgram) d 1 52 0 = some (none, r₂) := hload
  obtain ⟨ret, s', hcall, -⟩ :=
    execCall_spec (s := someCaller r old) (some cutProgram) [47, 105] [[105]] hsafe
  have hret : ret = -1 := by
    have hrun := hcall
    rw [execCall] at hrun
    dsimp only at hrun
    rw [helf] at hrun
    dsimp only at hrun
    have hram : ((((someCaller r old).call .beginOp).call .namei).call .ilock).ram = r := rfl
    rw [if_neg (by decide), hram, hsetup, Option.bind_some] at hrun
    dsimp only at hrun
    change (execLoad smallKernel (executable cutProgram) d 1 52 0 r₁).bind _ = _ at hrun
    rw [hload, Option.bind_some] at hrun
    obtain ⟨r₃, -, heq⟩ := Option.map_eq_some_iff.mp hrun
    exact (congrArg Prod.fst heq).symm
  subst hret
  obtain ⟨hfailed, hnodup⟩ := exec_failure hsafe hcall
  exact ⟨r, old, d, r₁, r₂, s', hsetup, hload, (hspans₂ 0 (by decide)).mpr (by decide), hcall,
    hfailed.calls, hfailed.proc, hfailed.free, hnodup⟩

end Xv6.Ram
