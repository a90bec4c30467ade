import LittleOS.Lib.ByteStore

/-! # Loading an image

    `read_elf` of `loader32.c` over the fields of `elf.h` that it reads.  It
    reads them from memory again wherever it uses them, while it writes the
    segments there.

    * `loadSegment_within` — where a segment writes, if that is not its own address
      and sizes;
    * `loadSegment_stays` — or if what it writes there is what is there;
    * `headerLoop_mem` — what the loop over the headers leaves in memory;
    * `read_elf_loads` — a well-formed image is loaded;
    * `Image.headerLoop_within` — where no segment changes a field that is still to be
      read, the loop stays in the declared ranges exactly if every file part fits in;
    * `confinement` — which images are loaded into their declared ranges. -/

namespace LittleOS.ReadElf

open ByteStore

/-- A `uint32_t`. -/
abbrev Word := BitVec 32

/-! ## The fields -/

/-- `Elf32_Phdr`, without `p_vaddr`, `p_flags` and `p_align`. -/
structure Phdr where
  pType : Word
  pOffset : Word
  pPaddr : Word
  pFilesz : Word
  pMemsz : Word
deriving DecidableEq, Repr

/-- `sizeof(elf32_phdr_t)` -/
def sizeofPhdr : Nat := 32

/-- The program header at an address. -/
def phdrAt (mem : Mem) (phdr : Word) : Phdr where
  pType := read32 mem phdr
  pOffset := read32 mem (phdr + 4)
  pPaddr := read32 mem (phdr + 12)
  pFilesz := read32 mem (phdr + 16)
  pMemsz := read32 mem (phdr + 20)

/-- The bytes of a header that are read. -/
def ReadField (phdr a : Word) : Prop := InRange phdr 8 a ∨ InRange (phdr + 12) 12 a

instance (phdr a : Word) : Decidable (ReadField phdr a) :=
  inferInstanceAs (Decidable (_ ∨ _))

/-- `PT_LOAD` -/
def ptLoad : Word := 1

/-- `Elf32_Ehdr` has 52 bytes. -/
def sizeofEhdr : Nat := 52

section Header

variable (mem : Mem) (fileBuffer : Word)

/-- `e_ident` begins with the magic number. -/
def Magic : Prop :=
  mem fileBuffer = 0x7F ∧ mem (fileBuffer + 1) = 0x45 ∧ mem (fileBuffer + 2) = 0x4C ∧
    mem (fileBuffer + 3) = 0x46

instance : Decidable (Magic mem fileBuffer) := inferInstanceAs (Decidable (_ ∧ _))

def eEntry : Word := read32 mem (fileBuffer + 24)
def ePhoff : Word := read32 mem (fileBuffer + 28)
def ePhnum : Nat := (read16 mem (fileBuffer + 44)).toNat

/-- `(Elf32_Phdr *)(file_buffer + elf_hdr->e_phoff) + i`. -/
def phdrAddr (i : Nat) : Word :=
  fileBuffer + ePhoff mem fileBuffer + BitVec.ofNat 32 (sizeofPhdr * i)

end Header

/-! ## The function -/

section Source

variable {found : Mem} (fileBuffer : Word)

/-- The loop that copies the bytes of the file. -/
def copyLoop (phdr src dest : Word) (s : Store found) : Store found :=
  storeLoop (fun mem => (phdrAt mem phdr).pFilesz) (fun mem j => mem (src + j)) dest 0 s

/-- The loop that fills the rest. -/
def zeroLoop (phdr dest : Word) (s : Store found) : Store found :=
  storeLoop (fun mem => (phdrAt mem phdr).pMemsz - (phdrAt mem phdr).pFilesz)
    (fun _ _ => 0) dest 0 s

/-- One segment. -/
def loadSegment (phdr : Word) (s : Store found) : Store found :=
  let src := fileBuffer + (phdrAt s.mem phdr).pOffset
  let dest := (phdrAt s.mem phdr).pPaddr
  let s := copyLoop phdr src dest s
  let dest := (phdrAt s.mem phdr).pPaddr + (phdrAt s.mem phdr).pFilesz
  zeroLoop phdr dest s

/-- One turn of the loop over the program headers. -/
def headerTurn (s : Store found) (i : Nat) : Store found :=
  let phdr := phdrAddr s.mem fileBuffer i
  if (phdrAt s.mem phdr).pType ≠ ptLoad then s else loadSegment fileBuffer phdr s

/-- The loop over the program headers from `i` on. -/
def headerLoop (i : Nat) (s : Store found) : Store found :=
  if i < ePhnum s.mem fileBuffer then headerLoop (i + 1) (headerTurn fileBuffer s i) else s
termination_by 2 ^ 16 - i
decreasing_by
  have hlt := (read16 s.mem (fileBuffer + 44)).isLt
  have hi : i < (read16 s.mem (fileBuffer + 44)).toNat := ‹_›
  exact Nat.sub_lt_sub_left (Nat.lt_trans hi hlt) (Nat.lt_succ_self i)

/-- `read_elf`: 0 for a file that is no ELF image. -/
def readElf (s : Store found) : Word × Store found :=
  if ¬ Magic s.mem fileBuffer then (0, s)
  else
    let s := headerLoop fileBuffer 0 s
    (eEntry s.mem fileBuffer, s)

end Source

/-! ## One segment -/

section Segment

variable {found : Mem} {D : Word → Prop} {phdr : Word}

/-- A field lies in the structure that holds it. -/
theorem inRange_read {a b : Word} (c : Word) {n k : Nat} (hb : InRange (a + c) k b)
    (hc : c.toNat + k ≤ n) : InRange a n b := by
  unfold InRange at hb ⊢
  have hsplit : b - a = c + (b - (a + c)) := by bv_omega
  rw [hsplit, BitVec.toNat_add]
  omega

/-- A word is read from its four bytes. -/
theorem read32_eq {m m' : Mem} {a : Word} (h : ∀ b, InRange a 4 b → m b = m' b) :
    read32 m a = read32 m' a := by
  have hread : read32 m (a + 0) = read32 m' (a + 0) :=
    read32_congr (n := 4) (by decide) h (by decide)
  simpa using hread

/-- The sizes of a segment stand in eight bytes of its header. -/
theorem sizes_eq {m m' : Mem} (h : ∀ b, InRange (phdr + 16) 8 b → m b = m' b) :
    (phdrAt m phdr).pFilesz = (phdrAt m' phdr).pFilesz ∧
    (phdrAt m phdr).pMemsz = (phdrAt m' phdr).pMemsz := by
  have h16 : read32 m (phdr + 16) = read32 m' (phdr + 16) :=
    read32_eq fun b hb => h b (Nat.lt_trans hb (by decide))
  have h20 : read32 m (phdr + 16 + 4) = read32 m' (phdr + 16 + 4) :=
    read32_eq fun b hb => h b (inRange_read 4 hb (by decide))
  rw [BitVec.add_assoc] at h20
  exact ⟨h16, h20⟩

/-- They are behind the address. -/
theorem inRange_sizes {a : Word} (h : InRange (phdr + 16) 8 a) : InRange (phdr + 12) 12 a := by
  have hin : InRange (phdr + 12 + 4) 8 a := by
    rw [BitVec.add_assoc]
    exact h
  exact inRange_read 4 hin (by decide)

/-- With it they are twelve bytes. -/
theorem place_eq {m m' : Mem} (h : ∀ b, InRange (phdr + 12) 12 b → m b = m' b) :
    (phdrAt m phdr).pPaddr = (phdrAt m' phdr).pPaddr ∧
    (phdrAt m phdr).pFilesz = (phdrAt m' phdr).pFilesz ∧
    (phdrAt m phdr).pMemsz = (phdrAt m' phdr).pMemsz :=
  ⟨read32_eq fun b hb => h b (Nat.lt_trans hb (by decide)),
    sizes_eq fun b hb => h b (inRange_sizes hb)⟩

/-- The fields of a header that is not written are those that were found. -/
theorem phdrAt_agrees (hphdr : ∀ a, ReadField phdr a → ¬ D a) {m : Mem}
    (hm : ∀ a, ¬ D a → m a = found a) : phdrAt m phdr = phdrAt found phdr := by
  have hlow : ∀ c : Word, c.toNat + 4 ≤ 8 → read32 m (phdr + c) = read32 found (phdr + c) :=
    fun c hc => read32_eq fun b hb => hm b (hphdr b (Or.inl (inRange_read c hb hc)))
  have h0 : read32 m phdr = read32 found phdr := by
    simpa using hlow 0 (by decide)
  obtain ⟨h12, h16, h20⟩ := place_eq fun b hb => hm b (hphdr b (Or.inr hb))
  exact (Phdr.mk.injEq ..).mpr ⟨h0, hlow 4 (by decide), h12, h16, h20⟩

variable (hplace : ∀ a, InRange (phdr + 12) 12 a → ¬ D a)
include hplace

/-- The address and the sizes of a segment that are not written are those that were
    found. -/
theorem place_agrees {m : Mem} (hm : ∀ a, ¬ D a → m a = found a) :
    (phdrAt m phdr).pPaddr = (phdrAt found phdr).pPaddr ∧
    (phdrAt m phdr).pFilesz = (phdrAt found phdr).pFilesz ∧
    (phdrAt m phdr).pMemsz = (phdrAt found phdr).pMemsz :=
  place_eq fun b hb => hm b (hplace b hb)

/-- Where the copying loop writes. -/
theorem copyLoop_within (src dest : Word) (s : Store found) :
    (copyLoop phdr src dest s).Within D ↔
      s.Within D ∧ ∀ k : Word, k.toNat < (phdrAt found phdr).pFilesz.toNat → D (dest + k) :=
  storeLoop_within_zero (fun _ hm => (place_agrees hplace hm).2.1) s

/-- Where the zeroing loop writes. -/
theorem zeroLoop_within (dest : Word) (s : Store found) :
    (zeroLoop phdr dest s).Within D ↔
      s.Within D ∧ ∀ k : Word, k.toNat
        < ((phdrAt found phdr).pMemsz - (phdrAt found phdr).pFilesz).toNat → D (dest + k) :=
  storeLoop_within_zero (fun _ hm => by
    obtain ⟨-, hfilesz, hmemsz⟩ := place_agrees hplace hm
    rw [hfilesz, hmemsz]) s

/-- **ONE SEGMENT** writes its file bytes and, from there on, as many more as
    `p_memsz - p_filesz` says. -/
theorem loadSegment_within (fileBuffer : Word) (s : Store found) :
    (loadSegment fileBuffer phdr s).Within D ↔
      s.Within D ∧
      (∀ k : Word, k.toNat < (phdrAt found phdr).pFilesz.toNat →
        D ((phdrAt found phdr).pPaddr + k)) ∧
      ∀ k : Word, k.toNat
        < ((phdrAt found phdr).pMemsz - (phdrAt found phdr).pFilesz).toNat →
          D ((phdrAt found phdr).pPaddr + (phdrAt found phdr).pFilesz + k) := by
  unfold loadSegment
  dsimp only
  generalize fileBuffer + (phdrAt s.mem phdr).pOffset = src
  rw [zeroLoop_within hplace, copyLoop_within hplace]
  constructor
  · rintro ⟨⟨hs, hcopy⟩, hzero⟩
    rw [(place_agrees hplace fun a ha => hs.agrees ha).1] at hcopy hzero
    have hs₁ := (copyLoop_within hplace src (phdrAt found phdr).pPaddr s).mpr ⟨hs, hcopy⟩
    obtain ⟨hpaddr, hfilesz, -⟩ := place_agrees hplace fun a ha => hs₁.agrees ha
    rw [hpaddr, hfilesz] at hzero
    exact ⟨hs, hcopy, hzero⟩
  · rintro ⟨hs, hcopy, hzero⟩
    have hs₁ := (copyLoop_within hplace src (phdrAt found phdr).pPaddr s).mpr ⟨hs, hcopy⟩
    obtain ⟨hpaddr, hfilesz, -⟩ := place_agrees hplace fun a ha => hs₁.agrees ha
    rw [(place_agrees hplace fun a ha => hs.agrees ha).1, hpaddr, hfilesz]
    exact ⟨⟨hs, hcopy⟩, hzero⟩

/-- What the copying loop leaves, where it writes apart from what it reads. -/
theorem copyLoop_mem {src dest : Word} {s : Store found}
    (hfile : ∀ k : Word, k.toNat < (phdrAt found phdr).pFilesz.toNat → ¬ D (src + k))
    (hD : (copyLoop phdr src dest s).Within D) (a : Word) :
    (copyLoop phdr src dest s).mem a
      = if InRange dest (phdrAt found phdr).pFilesz.toNat a then found (src + (a - dest))
        else s.mem a :=
  storeLoop_mem_zero (fun _ hm => (place_agrees hplace hm).2.1)
    (v := fun k => found (src + k)) (fun _ hm k hk => hm _ (hfile k hk)) hD a

/-- What the zeroing loop leaves. -/
theorem zeroLoop_mem {dest : Word} {s : Store found}
    (hD : (zeroLoop phdr dest s).Within D) (a : Word) :
    (zeroLoop phdr dest s).mem a
      = if InRange dest ((phdrAt found phdr).pMemsz - (phdrAt found phdr).pFilesz).toNat a
        then 0 else s.mem a :=
  storeLoop_mem_zero (fun _ hm => by
      obtain ⟨-, hfilesz, hmemsz⟩ := place_agrees hplace hm
      rw [hfilesz, hmemsz])
    (v := fun _ => 0) (fun _ _ _ _ => rfl) hD a

omit hplace in
/-- The bytes to fill lie behind those of the file. -/
theorem inRange_rest {paddr filesz memsz a : Word} (hle : filesz.toNat ≤ memsz.toNat) :
    InRange (paddr + filesz) (memsz - filesz).toNat a ↔
      ¬ InRange paddr filesz.toNat a ∧ InRange paddr memsz.toNat a := by
  unfold InRange
  bv_omega

/-- The byte a segment is to have at an address. -/
def content (found : Mem) (fileBuffer : Word) (p : Phdr) (a : Word) : Byte :=
  if InRange p.pPaddr p.pFilesz.toNat a then found (fileBuffer + p.pOffset + (a - p.pPaddr))
  else 0

omit hplace in
/-- **ITS CONTENT**, where the file bytes are not written meanwhile. -/
theorem loadSegment_mem (hphdr : ∀ a, ReadField phdr a → ¬ D a) {fileBuffer : Word}
    {s : Store found}
    (hfile : ∀ k : Word, k.toNat < (phdrAt found phdr).pFilesz.toNat →
      ¬ D (fileBuffer + (phdrAt found phdr).pOffset + k))
    (hle : (phdrAt found phdr).pFilesz.toNat ≤ (phdrAt found phdr).pMemsz.toNat)
    (hD : (loadSegment fileBuffer phdr s).Within D) (a : Word) :
    (loadSegment fileBuffer phdr s).mem a
      = if InRange (phdrAt found phdr).pPaddr (phdrAt found phdr).pMemsz.toNat a then
          content found fileBuffer (phdrAt found phdr) a
        else s.mem a := by
  have hplace : ∀ a, InRange (phdr + 12) 12 a → ¬ D a := fun a ha => hphdr a (Or.inr ha)
  have hfields : ∀ {t : Store found}, t.Within D → phdrAt t.mem phdr = phdrAt found phdr :=
    fun ht => phdrAt_agrees hphdr fun a ha => ht.agrees ha
  obtain ⟨hs, hcopy, hzero⟩ := (loadSegment_within hplace fileBuffer s).mp hD
  have hs₁ := (copyLoop_within hplace (fileBuffer + (phdrAt found phdr).pOffset)
    (phdrAt found phdr).pPaddr s).mpr ⟨hs, hcopy⟩
  unfold loadSegment at hD ⊢
  dsimp only at hD ⊢
  rw [hfields hs, hfields hs₁] at hD ⊢
  rw [zeroLoop_mem hplace hD, copyLoop_mem hplace hfile hs₁]
  unfold content
  by_cases hin : InRange (phdrAt found phdr).pPaddr (phdrAt found phdr).pFilesz.toNat a
  · have hmem : InRange (phdrAt found phdr).pPaddr (phdrAt found phdr).pMemsz.toNat a :=
      Nat.lt_of_lt_of_le hin hle
    rw [if_neg (fun h => ((inRange_rest hle).mp h).1 hin), if_pos hin, if_pos hmem, if_pos hin]
  · rw [if_neg hin, if_neg hin]
    refine if_congr ?_ rfl rfl
    exact (inRange_rest hle).trans (and_iff_right hin)

end Segment

/-! ## The program headers -/

section Headers

variable (found : Mem) (fileBuffer : Word)

/-- A program header as it was found. -/
def header (i : Nat) : Phdr := phdrAt found (phdrAddr found fileBuffer i)

/-- It is one of a segment to load. -/
def Loadable (i : Nat) : Prop :=
  i < ePhnum found fileBuffer ∧ (header found fileBuffer i).pType = ptLoad

instance (i : Nat) : Decidable (Loadable found fileBuffer i) :=
  inferInstanceAs (Decidable (_ ∧ _))

/-- The addresses from `p_paddr` on that a header declares. -/
def Destination (i : Nat) (a : Word) : Prop :=
  InRange (header found fileBuffer i).pPaddr (header found fileBuffer i).pMemsz.toNat a

instance (i : Nat) (a : Word) : Decidable (Destination found fileBuffer i a) :=
  inferInstanceAs (Decidable (InRange _ _ _))

/-- A byte that a segment of the file declares. -/
def Declared (a : Word) : Prop :=
  ∃ i, Loadable found fileBuffer i ∧ Destination found fileBuffer i a

/-- The file header and the fields of the program headers are not written. -/
structure HeadersApart (D : Word → Prop) : Prop where
  ehdr : ∀ a, InRange fileBuffer sizeofEhdr a → ¬ D a
  table : ∀ i < ePhnum found fileBuffer, ∀ a,
    ReadField (phdrAddr found fileBuffer i) a → ¬ D a

variable {found fileBuffer} {D : Word → Prop} (hD : HeadersApart found fileBuffer D)
include hD

/-- The number of headers is still what it was in the file. -/
theorem HeadersApart.ePhnum {m : Mem} (hm : ∀ a, ¬ D a → m a = found a) :
    ePhnum m fileBuffer = ePhnum found fileBuffer :=
  congrArg BitVec.toNat
    (read16_congr (n := sizeofEhdr) (by decide) (fun a ha => hm a (hD.ehdr a ha)) (by decide))

/-- The entry is still what it was in the file. -/
theorem HeadersApart.eEntry {m : Mem} (hm : ∀ a, ¬ D a → m a = found a) :
    eEntry m fileBuffer = eEntry found fileBuffer :=
  read32_congr (n := sizeofEhdr) (by decide) (fun a ha => hm a (hD.ehdr a ha)) (by decide)

/-- The headers are still where they were in the file. -/
theorem HeadersApart.phdrAddr {m : Mem} (hm : ∀ a, ¬ D a → m a = found a) (i : Nat) :
    phdrAddr m fileBuffer i = phdrAddr found fileBuffer i := by
  have hoff : ePhoff m fileBuffer = ePhoff found fileBuffer :=
    read32_congr (n := sizeofEhdr) (by decide) (fun a ha => hm a (hD.ehdr a ha)) (by decide)
  unfold ReadElf.phdrAddr
  rw [hoff]

omit hD in
/-- What a turn adds to the log it adds there. -/
theorem within_of_headerTurn {i : Nat} {s : Store found}
    (h : (headerTurn fileBuffer s i).Within D) : s.Within D := by
  unfold headerTurn at h
  dsimp only at h
  split at h
  · exact h
  · exact Store.Within.of_storeLoop (Store.Within.of_storeLoop h)

omit hD in
/-- What the loop over the headers keeps within a region was within it before. -/
theorem within_of_headerLoop {i : Nat} {s : Store found}
    (h : (headerLoop fileBuffer i s).Within D) : s.Within D := by
  induction i, s using headerLoop.induct fileBuffer with
  | case1 i s hi ih =>
      rw [headerLoop, if_pos hi] at h
      exact within_of_headerTurn (ih h)
  | case2 i s hi =>
      rw [headerLoop, if_neg hi] at h
      exact h

/-- A turn on a memory that agrees with the one found. -/
theorem headerTurn_eq {i : Nat} (hi : i < ePhnum found fileBuffer) {s : Store found}
    (hs : s.Within D) :
    headerTurn fileBuffer s i
      = if (header found fileBuffer i).pType ≠ ptLoad then s
        else loadSegment fileBuffer (phdrAddr found fileBuffer i) s := by
  have hm : ∀ a, ¬ D a → s.mem a = found a := fun a ha => hs.agrees ha
  unfold headerTurn header
  rw [hD.phdrAddr hm]
  dsimp only
  rw [phdrAt_agrees (hD.table i hi) hm]

/-- The bytes that loading a segment writes are in `D`. -/
def SegmentIn (found : Mem) (fileBuffer : Word) (D : Word → Prop) (i : Nat) : Prop :=
  (∀ k : Word, k.toNat < (header found fileBuffer i).pFilesz.toNat →
    D ((header found fileBuffer i).pPaddr + k)) ∧
  ∀ k : Word, k.toNat
    < ((header found fileBuffer i).pMemsz - (header found fileBuffer i).pFilesz).toNat →
      D ((header found fileBuffer i).pPaddr + (header found fileBuffer i).pFilesz + k)

/-- What a turn leaves. -/
theorem headerTurn_mem {i : Nat} (hi : i < ePhnum found fileBuffer)
    (hfile : Loadable found fileBuffer i → ∀ j : Word,
      j.toNat < (header found fileBuffer i).pFilesz.toNat →
      ¬ D (fileBuffer + (header found fileBuffer i).pOffset + j))
    (hle : Loadable found fileBuffer i →
      (header found fileBuffer i).pFilesz.toNat ≤ (header found fileBuffer i).pMemsz.toNat)
    {s : Store found} (hin : (headerTurn fileBuffer s i).Within D) (a : Word) :
    (headerTurn fileBuffer s i).mem a
      = if Loadable found fileBuffer i ∧ Destination found fileBuffer i a then
          content found fileBuffer (header found fileBuffer i) a
        else s.mem a := by
  have heq := headerTurn_eq hD hi (within_of_headerTurn hin)
  by_cases hload : Loadable found fileBuffer i
  · rw [if_neg (not_not.mpr hload.2)] at heq
    rw [heq] at hin ⊢
    refine (loadSegment_mem (hD.table i hi) (hfile hload) (hle hload) hin a).trans ?_
    exact if_congr (and_iff_right hload).symm rfl rfl
  · rw [if_pos fun htype => hload ⟨hi, htype⟩] at heq
    rw [heq, if_neg fun h => hload h.1]

/-- **WHAT IS LOADED** from header `i` on, segments apart from each other. -/
theorem headerLoop_mem
    (hfile : ∀ k, Loadable found fileBuffer k → ∀ j : Word,
      j.toNat < (header found fileBuffer k).pFilesz.toNat →
      ¬ D (fileBuffer + (header found fileBuffer k).pOffset + j))
    (hle : ∀ k, Loadable found fileBuffer k →
      (header found fileBuffer k).pFilesz.toNat ≤ (header found fileBuffer k).pMemsz.toNat)
    (hdisjoint : ∀ j k, Loadable found fileBuffer j → Loadable found fileBuffer k → j ≠ k →
      ∀ a, Destination found fileBuffer j a → ¬ Destination found fileBuffer k a)
    (i : Nat) (s : Store found) (hin : (headerLoop fileBuffer i s).Within D) (a : Word) :
    (∀ k, i ≤ k → Loadable found fileBuffer k → Destination found fileBuffer k a →
      (headerLoop fileBuffer i s).mem a
        = content found fileBuffer (header found fileBuffer k) a) ∧
    ((∀ k, i ≤ k → Loadable found fileBuffer k → ¬ Destination found fileBuffer k a) →
      (headerLoop fileBuffer i s).mem a = s.mem a) := by
  induction i, s using headerLoop.induct fileBuffer with
  | case1 i s hi ih =>
      rw [headerLoop, if_pos hi] at hin ⊢
      obtain ⟨hloaded, hother⟩ := ih hin
      have hturn := within_of_headerLoop hin
      have hs := within_of_headerTurn hturn
      rw [hD.ePhnum fun a ha => hs.agrees ha] at hi
      have hmem := headerTurn_mem hD hi (hfile i) (hle i) hturn a
      constructor
      · intro k hik hk ha
        rcases Nat.eq_or_lt_of_le hik with rfl | hlt
        · -- the segment of this turn, which the later ones leave alone
          rw [hother fun j hj hjload => hdisjoint i j hk hjload (by omega) a ha, hmem]
          exact if_pos ⟨hk, ha⟩
        · exact hloaded k hlt hk ha
      · intro hnone
        rw [hother fun j hj => hnone j (Nat.le_of_succ_le hj), hmem]
        exact if_neg fun h => hnone i (Nat.le_refl i) h.1 h.2
  | case2 i s hi =>
      rw [headerLoop, if_neg hi] at hin ⊢
      rw [hD.ePhnum fun a ha => hin.agrees ha] at hi
      exact ⟨fun k hik hk _ => absurd (Nat.lt_of_le_of_lt hik hk.1) hi, fun _ => rfl⟩

end Headers

/-! ## Images -/

/-- A file in a buffer of this size that is taken for an image, and whose declared
    ranges do not wrap and leave the buffer alone. -/
structure Image (found : Mem) (fileBuffer : Word) (size : Nat) : Prop where
  fits : fileBuffer.toNat + size ≤ 2 ^ 32
  ehdr : sizeofEhdr ≤ size
  magic : Magic found fileBuffer
  space : ∀ i, Loadable found fileBuffer i →
    (header found fileBuffer i).pPaddr.toNat + (header found fileBuffer i).pMemsz.toNat
      ≤ 2 ^ 32
  apart : ∀ a, Declared found fileBuffer a → ¬ InRange fileBuffer size a

/-- No declared range overlaps a field of the program headers. -/
def TableApart (found : Mem) (fileBuffer : Word) : Prop :=
  ∀ a, Declared found fileBuffer a → ∀ i < ePhnum found fileBuffer,
    ¬ ReadField (phdrAddr found fileBuffer i) a

section Fields

variable (found : Mem) (fileBuffer : Word)

/-- The bytes of a header that are read: the type, and the other fields if it is one
    of a segment. -/
def FieldOf (i : Nat) (a : Word) : Prop :=
  InRange (phdrAddr found fileBuffer i) 4 a ∨
    Loadable found fileBuffer i ∧ ReadField (phdrAddr found fileBuffer i) a

/-- The file part of a segment goes over fields of its own header or of a later one. -/
def OverFields (i : Nat) : Prop :=
  ∃ k, i ≤ k ∧ k < ePhnum found fileBuffer ∧ ∃ a,
    InRange (header found fileBuffer i).pPaddr (header found fileBuffer i).pFilesz.toNat a ∧
    FieldOf found fileBuffer k a

/-- The bytes of a header that say where its segment goes: the type, the address and
    the sizes, and the offset if bytes of the file become fields. -/
def Decides (i : Nat) (a : Word) : Prop :=
  InRange (phdrAddr found fileBuffer i) 4 a ∨
    Loadable found fileBuffer i ∧
      (InRange (phdrAddr found fileBuffer i + 12) 12 a ∨
        OverFields found fileBuffer i ∧ InRange (phdrAddr found fileBuffer i + 4) 4 a)

/-- Those of header `i` that are read once segment `j` has begun to be written: all
    of a later header; of its own the sizes, and behind the copy the address. -/
def ReadAfter (j i : Nat) (a : Word) : Prop :=
  j < i ∧ Decides found fileBuffer i a ∨
  j = i ∧ (InRange (phdrAddr found fileBuffer i + 16) 8 a ∨
    InRange (phdrAddr found fileBuffer i + 12) 4 a ∧
      InRange (header found fileBuffer i).pPaddr (header found fileBuffer i).pFilesz.toNat a)

/-- The addresses that the segments before header `i` declare. -/
def DeclaredBefore (i : Nat) (a : Word) : Prop :=
  ∃ j < i, Loadable found fileBuffer j ∧ Destination found fileBuffer j a

/-- Segment `j` has the byte for an address that is there, and has it from where
    nothing is written so far. -/
def Restores (j : Nat) (a : Word) : Prop :=
  content found fileBuffer (header found fileBuffer j) a = found a ∧
  (InRange (header found fileBuffer j).pPaddr (header found fileBuffer j).pFilesz.toNat a →
    ¬ DeclaredBefore found fileBuffer (j + 1)
      (fileBuffer + (header found fileBuffer j).pOffset
        + (a - (header found fileBuffer j).pPaddr)))

/-- No segment changes a field that is still to be read. -/
def FieldsStay : Prop :=
  ∀ j i a, Loadable found fileBuffer j → Destination found fileBuffer j a →
    i < ePhnum found fileBuffer → ReadAfter found fileBuffer j i a →
    Restores found fileBuffer j a

end Fields

/-- No header declares fewer bytes than its file part has. -/
def SizesFit (found : Mem) (fileBuffer : Word) : Prop :=
  ∀ i, Loadable found fileBuffer i →
    (header found fileBuffer i).pFilesz.toNat ≤ (header found fileBuffer i).pMemsz.toNat

/-- Where a file part is too long, its header's address and sizes are not declared
    by any segment. -/
def OverlongApart (found : Mem) (fileBuffer : Word) : Prop :=
  ∀ i, Loadable found fileBuffer i →
    (header found fileBuffer i).pMemsz.toNat < (header found fileBuffer i).pFilesz.toNat →
    ∀ a, InRange (phdrAddr found fileBuffer i + 12) 12 a → ¬ Declared found fileBuffer a

section Images

variable {found : Mem} {fileBuffer : Word} {size : Nat}

/-- The headers of an image whose table is apart stay as they are. -/
theorem Image.headersApart (h : Image found fileBuffer size)
    (ht : TableApart found fileBuffer) :
    HeadersApart found fileBuffer (Declared found fileBuffer) where
  ehdr := fun a ha hd => h.apart a hd (Nat.lt_of_lt_of_le ha h.ehdr)
  table := fun i hi a ha hd => ht a hd i hi ha

/-- An offset into the buffer, and one from there. -/
theorem inRange_buffer {off k : Word} (h : off.toNat + k.toNat < size) :
    InRange fileBuffer size (fileBuffer + off + k) := by
  rw [BitVec.add_assoc, inRange_add, BitVec.toNat_add]
  exact Nat.lt_of_le_of_lt (Nat.mod_le _ _) h

/-- The table of an image that contains it. -/
theorem Image.tableApart (h : Image found fileBuffer size)
    (ht : (ePhoff found fileBuffer).toNat + sizeofPhdr * ePhnum found fileBuffer ≤ size) :
    TableApart found fileBuffer := by
  intro a hd i hi hfield
  have ha : InRange (phdrAddr found fileBuffer i) sizeofPhdr a := by
    rcases hfield with ha | ha
    · exact Nat.lt_of_lt_of_le ha (by decide)
    · exact inRange_read 12 ha (by decide)
  have hfits := h.fits
  have hslot : sizeofPhdr * i + sizeofPhdr ≤ sizeofPhdr * ePhnum found fileBuffer :=
    Nat.mul_le_mul_left sizeofPhdr (Nat.succ_le_of_lt hi)
  unfold InRange at ha
  have hin : InRange fileBuffer size a := by
    have hoff : (ePhoff found fileBuffer + BitVec.ofNat 32 (sizeofPhdr * i)).toNat
        + (a - phdrAddr found fileBuffer i).toNat < size := by
      rw [BitVec.toNat_add, BitVec.toNat_ofNat]
      have hmod := Nat.mod_le (sizeofPhdr * i) (2 ^ 32)
      have hmod' := Nat.mod_le ((ePhoff found fileBuffer).toNat
        + sizeofPhdr * i % 2 ^ 32) (2 ^ 32)
      omega
    have hplace : fileBuffer + (ePhoff found fileBuffer + BitVec.ofNat 32 (sizeofPhdr * i))
        + (a - phdrAddr found fileBuffer i) = a := by
      rw [← BitVec.add_assoc, ← phdrAddr, BitVec.add_comm, BitVec.sub_add_cancel]
    exact hplace ▸ inRange_buffer hoff
  exact h.apart a hd hin

/-- **A SEGMENT STAYS** in its range exactly if its file part fits in. -/
theorem Image.segmentIn_iff (h : Image found fileBuffer size) {i : Nat}
    (hload : Loadable found fileBuffer i) :
    SegmentIn found fileBuffer (Declared found fileBuffer) i ↔
      (header found fileBuffer i).pFilesz.toNat
        ≤ (header found fileBuffer i).pMemsz.toNat := by
  have hbuffer : ¬ Declared found fileBuffer fileBuffer := fun hd =>
    h.apart fileBuffer hd (by
      have hsize := h.ehdr
      unfold InRange
      rw [BitVec.sub_self]
      exact Nat.lt_of_lt_of_le (by decide) hsize)
  generalize hp : header found fileBuffer i = p
  unfold SegmentIn
  rw [hp]
  constructor
  · -- otherwise the two loops together go through every address
    rintro ⟨hcopy, hzero⟩
    by_contra hlt
    by_cases hk : (fileBuffer - p.pPaddr).toNat < p.pFilesz.toNat
    · have hd := hcopy _ hk
      rw [BitVec.add_comm, BitVec.sub_add_cancel] at hd
      exact hbuffer hd
    · have hd := hzero (fileBuffer - (p.pPaddr + p.pFilesz)) (by bv_omega)
      rw [BitVec.add_comm, BitVec.sub_add_cancel] at hd
      exact hbuffer hd
  · intro hle
    have hin : ∀ a, InRange p.pPaddr p.pMemsz.toNat a → Declared found fileBuffer a :=
      fun a ha => ⟨i, hload, by rw [Destination, hp]; exact ha⟩
    refine ⟨fun k hk => hin _ (inRange_add.mpr (by omega)), fun k hk => hin _ ?_⟩
    exact ((inRange_rest hle).mp (inRange_add.mpr hk)).2

/-- What `read_elf` does to an image. -/
theorem Image.readElf_eq (h : Image found fileBuffer size) :
    readElf fileBuffer (Store.start found)
      = (eEntry (headerLoop fileBuffer 0 (Store.start found)).mem fileBuffer,
          headerLoop fileBuffer 0 (Store.start found)) :=
  if_neg (not_not.mpr h.magic)

/-- What an earlier header declares is declared. -/
theorem declared_of_before {i : Nat} {a : Word} (h : DeclaredBefore found fileBuffer i a) :
    Declared found fileBuffer a := by
  obtain ⟨j, -, hload, hdest⟩ := h
  exact ⟨j, hload, hdest⟩

/-- It stays declared as the headers go on. -/
theorem declaredBefore_succ {i : Nat} {a : Word} (h : DeclaredBefore found fileBuffer i a) :
    DeclaredBefore found fileBuffer (i + 1) a := by
  obtain ⟨j, hj, hd⟩ := h
  exact ⟨j, Nat.lt_succ_of_lt hj, hd⟩

/-- The file header of an image stays as it is. -/
theorem Image.ehdr_agrees (h : Image found fileBuffer size) {i : Nat} {s : Store found}
    (hs : s.Within (DeclaredBefore found fileBuffer i)) {a : Word}
    (ha : InRange fileBuffer sizeofEhdr a) : s.mem a = found a :=
  hs.agrees fun hd => h.apart a (declared_of_before hd) (Nat.lt_of_lt_of_le ha h.ehdr)

/-- So does the number of its headers. -/
theorem Image.ePhnum_agrees (h : Image found fileBuffer size) {i : Nat} {s : Store found}
    (hs : s.Within (DeclaredBefore found fileBuffer i)) :
    ePhnum s.mem fileBuffer = ePhnum found fileBuffer :=
  congrArg BitVec.toNat
    (read16_congr (n := sizeofEhdr) (by decide) (fun a ha => h.ehdr_agrees hs ha) (by decide))

/-- What is still decided when the loop comes to header `i`. -/
def DecidesFrom (found : Mem) (fileBuffer : Word) (i : Nat) (a : Word) : Prop :=
  ∃ k, i ≤ k ∧ k < ePhnum found fileBuffer ∧ Decides found fileBuffer k a

/-- What stands while segment `i` is written: what no segment so far declares, the
    fields `own` of its header and what later headers decide. -/
def Stands (found : Mem) (fileBuffer : Word) (i : Nat) (own : Word → Prop) (a : Word) :
    Prop :=
  ¬ DeclaredBefore found fileBuffer (i + 1) a ∨ own a ∨ DecidesFrom found fileBuffer (i + 1) a

section Turn

variable {i : Nat} (hstay : FieldsStay found fileBuffer)
  (hload : Loadable found fileBuffer i)
  (hle : (header found fileBuffer i).pFilesz.toNat ≤ (header found fileBuffer i).pMemsz.toNat)
include hstay hload hle

/-- A field in the file part that is read behind the copy gets the bytes it has. -/
theorem copied_restores {a : Word}
    (hin : InRange (header found fileBuffer i).pPaddr
      (header found fileBuffer i).pFilesz.toNat a)
    (hread : InRange (phdrAddr found fileBuffer i + 12) 12 a ∨
      DecidesFrom found fileBuffer (i + 1) a) :
    OverFields found fileBuffer i ∧ Restores found fileBuffer i a := by
  have hdest : Destination found fileBuffer i a := Nat.lt_of_lt_of_le hin hle
  rcases hread with hown | ⟨k, hik, hk, hdecides⟩
  · refine ⟨⟨i, Nat.le_refl i, hload.1, a, hin, Or.inr ⟨hload, Or.inr hown⟩⟩, ?_⟩
    refine hstay i i a hload hdest hload.1 (Or.inr ⟨rfl, ?_⟩)
    by_cases hpaddr : InRange (phdrAddr found fileBuffer i + 12) 4 a
    · exact Or.inr ⟨hpaddr, hin⟩
    · refine Or.inl ?_
      unfold InRange at hown hpaddr ⊢
      bv_omega
  · refine ⟨⟨k, Nat.le_of_succ_le hik, hk, a, hin, ?_⟩, ?_⟩
    · rcases hdecides with htype | ⟨hloadk, hplace | ⟨-, hoff⟩⟩
      · exact Or.inl htype
      · exact Or.inr ⟨hloadk, Or.inr hplace⟩
      · exact Or.inr ⟨hloadk, Or.inl (inRange_read 4 hoff (by decide))⟩
    · exact hstay i k a hload hdest hk (Or.inl ⟨hik, hdecides⟩)

/-- **THE COPY** goes where its segment is declared, and changes neither address and
    sizes of its header nor what later headers decide. -/
theorem copyLoop_stays {src : Word}
    (hsrc : OverFields found fileBuffer i →
      src = fileBuffer + (header found fileBuffer i).pOffset)
    {s : Store found} (hs : s.Within (DeclaredBefore found fileBuffer i))
    (hkept : ∀ a, InRange (phdrAddr found fileBuffer i + 12) 12 a ∨
      DecidesFrom found fileBuffer (i + 1) a → s.mem a = found a) :
    let s' := copyLoop (phdrAddr found fileBuffer i) src (header found fileBuffer i).pPaddr s
    s'.Within (DeclaredBefore found fileBuffer (i + 1)) ∧
    ∀ a, InRange (phdrAddr found fileBuffer i + 12) 12 a ∨
      DecidesFrom found fileBuffer (i + 1) a → s'.mem a = found a := by
  have hwrites : ∀ k : Word, k.toNat < (header found fileBuffer i).pFilesz.toNat →
      DeclaredBefore found fileBuffer (i + 1) ((header found fileBuffer i).pPaddr + k) :=
    fun k hk => ⟨i, Nat.lt_succ_self i, hload, inRange_add.mpr (Nat.lt_of_lt_of_le hk hle)⟩
  -- what is not declared so far is found as well, which is where the bytes come from
  have hvalue : ∀ m : Mem,
      (∀ a, Stands found fileBuffer i (InRange (phdrAddr found fileBuffer i + 12) 12) a →
        m a = found a) →
      ∀ k : Word, k.toNat < (header found fileBuffer i).pFilesz.toNat →
      Stands found fileBuffer i (InRange (phdrAddr found fileBuffer i + 12) 12)
        ((header found fileBuffer i).pPaddr + k) →
      m (src + k) = found ((header found fileBuffer i).pPaddr + k) := by
    intro m hm k hk hq
    have hfile : InRange (header found fileBuffer i).pPaddr
        (header found fileBuffer i).pFilesz.toNat ((header found fileBuffer i).pPaddr + k) :=
      inRange_add.mpr hk
    obtain ⟨hover, hsame, hfrom⟩ := copied_restores hstay hload hle hfile
      (hq.resolve_left (not_not.mpr (hwrites k hk)))
    have hkeeps := hfrom hfile
    unfold content at hsame
    rw [if_pos hfile, BitVec.add_comm _ k, BitVec.add_sub_cancel, BitVec.add_comm k] at hsame
    rw [BitVec.add_comm _ k, BitVec.add_sub_cancel] at hkeeps
    rw [hsrc hover]
    exact (hm _ (Or.inl hkeeps)).trans hsame
  obtain ⟨hin, hagrees⟩ := storeLoop_restores
    (Q := Stands found fileBuffer i (InRange (phdrAddr found fileBuffer i + 12) 12))
    (fun m hm => (place_eq fun a ha => hm a (Or.inr (Or.inl ha))).2.1) hvalue hwrites 0 s
    (fun a ha => declaredBefore_succ (hs a ha))
    (fun a ha => ha.elim (fun hno => hs.agrees (mt declaredBefore_succ hno)) (hkept a))
  exact ⟨hin, fun a ha => hagrees a (Or.inr ha)⟩

/-- **THE FILL** behind it likewise, but for the address, which is not read again. -/
theorem zeroLoop_stays {s : Store found}
    (hs : s.Within (DeclaredBefore found fileBuffer (i + 1)))
    (hkept : ∀ a, InRange (phdrAddr found fileBuffer i + 12) 12 a ∨
      DecidesFrom found fileBuffer (i + 1) a → s.mem a = found a) :
    let s' := zeroLoop (phdrAddr found fileBuffer i)
      ((header found fileBuffer i).pPaddr + (header found fileBuffer i).pFilesz) s
    s'.Within (DeclaredBefore found fileBuffer (i + 1)) ∧
    ∀ a, DecidesFrom found fileBuffer (i + 1) a → s'.mem a = found a := by
  have hrest : ∀ k : Word, k.toNat
      < ((header found fileBuffer i).pMemsz - (header found fileBuffer i).pFilesz).toNat →
      ¬ InRange (header found fileBuffer i).pPaddr (header found fileBuffer i).pFilesz.toNat
          ((header found fileBuffer i).pPaddr + (header found fileBuffer i).pFilesz + k) ∧
        Destination found fileBuffer i
          ((header found fileBuffer i).pPaddr + (header found fileBuffer i).pFilesz + k) :=
    fun k hk => (inRange_rest hle).mp (inRange_add.mpr hk)
  have hwrites : ∀ k : Word, k.toNat
      < ((header found fileBuffer i).pMemsz - (header found fileBuffer i).pFilesz).toNat →
      DeclaredBefore found fileBuffer (i + 1)
        ((header found fileBuffer i).pPaddr + (header found fileBuffer i).pFilesz + k) :=
    fun k hk => ⟨i, Nat.lt_succ_self i, hload, (hrest k hk).2⟩
  have hbound : ∀ m : Mem,
      (∀ a, Stands found fileBuffer i (InRange (phdrAddr found fileBuffer i + 16) 8) a →
        m a = found a) →
      (phdrAt m (phdrAddr found fileBuffer i)).pMemsz
          - (phdrAt m (phdrAddr found fileBuffer i)).pFilesz
        = (header found fileBuffer i).pMemsz - (header found fileBuffer i).pFilesz := by
    intro m hm
    obtain ⟨hfilesz, hmemsz⟩ := sizes_eq fun a ha => hm a (Or.inr (Or.inl ha))
    exact congrArg₂ (· - ·) hmemsz hfilesz
  have hvalue : ∀ m : Mem,
      (∀ a, Stands found fileBuffer i (InRange (phdrAddr found fileBuffer i + 16) 8) a →
        m a = found a) →
      ∀ k : Word, k.toNat
        < ((header found fileBuffer i).pMemsz - (header found fileBuffer i).pFilesz).toNat →
      Stands found fileBuffer i (InRange (phdrAddr found fileBuffer i + 16) 8)
        ((header found fileBuffer i).pPaddr + (header found fileBuffer i).pFilesz + k) →
      0 = found
        ((header found fileBuffer i).pPaddr + (header found fileBuffer i).pFilesz + k) := by
    intro m _ k hk hq
    obtain ⟨hbehind, hdest⟩ := hrest k hk
    have hrestores : Restores found fileBuffer i ((header found fileBuffer i).pPaddr
        + (header found fileBuffer i).pFilesz + k) := by
      rcases hq.resolve_left (not_not.mpr (hwrites k hk)) with hown | ⟨k', hik, hk', hdec⟩
      · exact hstay i i _ hload hdest hload.1 (Or.inr ⟨rfl, Or.inl hown⟩)
      · exact hstay i k' _ hload hdest hk' (Or.inl ⟨hik, hdec⟩)
    have hsame := hrestores.1
    unfold content at hsame
    rw [if_neg hbehind] at hsame
    exact hsame
  obtain ⟨hin, hagrees⟩ := storeLoop_restores
    (Q := Stands found fileBuffer i (InRange (phdrAddr found fileBuffer i + 16) 8))
    hbound hvalue hwrites 0 s hs
    (fun a ha => ha.elim (fun hno => hs.agrees hno)
      (fun hq => hkept a (hq.imp_left inRange_sizes)))
  exact ⟨hin, fun a ha => hagrees a (Or.inr (Or.inr ha))⟩

/-- **ONE SEGMENT** whose file part fits in. -/
theorem loadSegment_stays {s : Store found}
    (hs : s.Within (DeclaredBefore found fileBuffer i))
    (hkept : ∀ a, DecidesFrom found fileBuffer i a → s.mem a = found a) :
    let s' := loadSegment fileBuffer (phdrAddr found fileBuffer i) s
    s'.Within (DeclaredBefore found fileBuffer (i + 1)) ∧
    ∀ a, DecidesFrom found fileBuffer (i + 1) a → s'.mem a = found a := by
  have hown : ∀ a, Decides found fileBuffer i a → s.mem a = found a :=
    fun a ha => hkept a ⟨i, Nat.le_refl i, hload.1, ha⟩
  have hplace : ∀ a, InRange (phdrAddr found fileBuffer i + 12) 12 a → s.mem a = found a :=
    fun a ha => hown a (Or.inr ⟨hload, Or.inl ha⟩)
  have hsrc : OverFields found fileBuffer i →
      fileBuffer + (phdrAt s.mem (phdrAddr found fileBuffer i)).pOffset
        = fileBuffer + (header found fileBuffer i).pOffset := fun hover =>
    congrArg (fileBuffer + ·)
      (read32_eq fun a ha => hown a (Or.inr ⟨hload, Or.inr ⟨hover, ha⟩⟩))
  obtain ⟨hs₁, hkept₁⟩ := copyLoop_stays hstay hload hle hsrc hs fun a ha =>
    ha.elim (hplace a) fun ⟨k, hik, hk⟩ => hkept a ⟨k, Nat.le_of_succ_le hik, hk⟩
  have hpaddr : (phdrAt s.mem (phdrAddr found fileBuffer i)).pPaddr
      = (header found fileBuffer i).pPaddr := (place_eq hplace).1
  unfold loadSegment
  dsimp only
  rw [hpaddr]
  generalize copyLoop (phdrAddr found fileBuffer i)
    (fileBuffer + (phdrAt s.mem (phdrAddr found fileBuffer i)).pOffset)
    (header found fileBuffer i).pPaddr s = s₁ at hs₁ hkept₁ ⊢
  -- the address and the size are read again for the fill
  have hpaddr₁ : (phdrAt s₁.mem (phdrAddr found fileBuffer i)).pPaddr
      = (header found fileBuffer i).pPaddr := (place_eq fun a ha => hkept₁ a (Or.inl ha)).1
  have hfilesz₁ : (phdrAt s₁.mem (phdrAddr found fileBuffer i)).pFilesz
      = (header found fileBuffer i).pFilesz := (place_eq fun a ha => hkept₁ a (Or.inl ha)).2.1
  rw [hpaddr₁, hfilesz₁]
  exact zeroLoop_stays hstay hload hle hs₁ hkept₁

end Turn

/-- A turn finds its header where the file has it, and of the type it has there. -/
theorem Image.headerTurn_eq (h : Image found fileBuffer size) {i : Nat}
    (hi : i < ePhnum found fileBuffer) {s : Store found}
    (hs : s.Within (DeclaredBefore found fileBuffer i))
    (hkept : ∀ a, DecidesFrom found fileBuffer i a → s.mem a = found a) :
    headerTurn fileBuffer s i
      = if (header found fileBuffer i).pType ≠ ptLoad then s
        else loadSegment fileBuffer (phdrAddr found fileBuffer i) s := by
  have hoff : ePhoff s.mem fileBuffer = ePhoff found fileBuffer :=
    read32_congr (n := sizeofEhdr) (by decide) (fun a ha => h.ehdr_agrees hs ha) (by decide)
  have haddr : phdrAddr s.mem fileBuffer i = phdrAddr found fileBuffer i := by
    unfold phdrAddr
    rw [hoff]
  have htype : (phdrAt s.mem (phdrAddr found fileBuffer i)).pType
      = (header found fileBuffer i).pType :=
    read32_eq fun a ha => hkept a ⟨i, Nat.le_refl i, hi, Or.inl ha⟩
  unfold headerTurn
  dsimp only
  rw [haddr, htype]

/-- **ONE TURN** with a file part that fits in, or with no segment. -/
theorem Image.headerTurn_stays (h : Image found fileBuffer size)
    (hstay : FieldsStay found fileBuffer) {i : Nat} (hi : i < ePhnum found fileBuffer)
    (hle : Loadable found fileBuffer i →
      (header found fileBuffer i).pFilesz.toNat ≤ (header found fileBuffer i).pMemsz.toNat)
    {s : Store found} (hs : s.Within (DeclaredBefore found fileBuffer i))
    (hkept : ∀ a, DecidesFrom found fileBuffer i a → s.mem a = found a) :
    let s' := headerTurn fileBuffer s i
    s'.Within (DeclaredBefore found fileBuffer (i + 1)) ∧
    ∀ a, DecidesFrom found fileBuffer (i + 1) a → s'.mem a = found a := by
  dsimp only
  rw [h.headerTurn_eq hi hs hkept]
  by_cases htype : (header found fileBuffer i).pType = ptLoad
  · rw [if_neg (not_not.mpr htype)]
    exact loadSegment_stays hstay ⟨hi, htype⟩ (hle ⟨hi, htype⟩) hs hkept
  · rw [if_pos htype]
    exact ⟨fun a ha => declaredBefore_succ (hs a ha),
      fun a ⟨k, hik, hk⟩ => hkept a ⟨k, Nat.le_of_succ_le hik, hk⟩⟩

/-- A turn with a file part that is too long leaves the declared ranges. -/
theorem Image.overlong_leaves (h : Image found fileBuffer size)
    (hover : OverlongApart found fileBuffer) {i : Nat} (hload : Loadable found fileBuffer i)
    (hlt : (header found fileBuffer i).pMemsz.toNat
      < (header found fileBuffer i).pFilesz.toNat)
    {s : Store found} (hs : s.Within (DeclaredBefore found fileBuffer i))
    (hkept : ∀ a, DecidesFrom found fileBuffer i a → s.mem a = found a) :
    ¬ (headerTurn fileBuffer s i).Within (Declared found fileBuffer) := by
  rw [h.headerTurn_eq hload.1 hs hkept, if_neg (not_not.mpr hload.2),
    loadSegment_within (hover i hload hlt)]
  rintro ⟨-, hin⟩
  exact absurd ((h.segmentIn_iff hload).mp hin) (Nat.not_le.mpr hlt)

/-- **THE LOOP** stays within exactly if the file parts of the headers that are left
    fit in.  Induction over these headers: up to the first that is too long nothing
    changes what is decided. -/
theorem Image.headerLoop_within (h : Image found fileBuffer size)
    (hstay : FieldsStay found fileBuffer) (hover : OverlongApart found fileBuffer)
    (i : Nat) (s : Store found) (hs : s.Within (DeclaredBefore found fileBuffer i))
    (hkept : ∀ a, DecidesFrom found fileBuffer i a → s.mem a = found a) :
    (headerLoop fileBuffer i s).Within (Declared found fileBuffer) ↔
      ∀ k, i ≤ k → Loadable found fileBuffer k →
        (header found fileBuffer k).pFilesz.toNat
          ≤ (header found fileBuffer k).pMemsz.toNat := by
  induction i, s using headerLoop.induct fileBuffer with
  | case1 i s hi ih =>
      rw [headerLoop, if_pos hi]
      rw [h.ePhnum_agrees hs] at hi
      by_cases hle : Loadable found fileBuffer i →
          (header found fileBuffer i).pFilesz.toNat ≤ (header found fileBuffer i).pMemsz.toNat
      · obtain ⟨hs', hkept'⟩ := h.headerTurn_stays hstay hi hle hs hkept
        refine (ih hs' hkept').trans ⟨?_, ?_⟩
        · intro hrest k hik hk
          rcases Nat.eq_or_lt_of_le hik with rfl | hlt
          · exact hle hk
          · exact hrest k hlt hk
        · exact fun hall k hik => hall k (Nat.le_of_succ_le hik)
      · -- the first file part that is too long
        obtain ⟨hload, hnot⟩ := Classical.not_imp.mp hle
        refine iff_of_false (fun hin => ?_) (fun hall => hle (hall i (Nat.le_refl i)))
        exact h.overlong_leaves hover hload (Nat.not_le.mp hnot) hs hkept
          (within_of_headerLoop hin)
  | case2 i s hi =>
      rw [headerLoop, if_neg hi]
      rw [h.ePhnum_agrees hs] at hi
      exact iff_of_true (fun a ha => declared_of_before (hs a ha))
        fun k hik hk => absurd (Nat.lt_of_le_of_lt hik hk.1) hi

/-- Such an image is loaded into its declared bytes alone exactly if no file size
    exceeds its memory size. -/
theorem Image.readElf_within (h : Image found fileBuffer size)
    (hstay : FieldsStay found fileBuffer) (hover : OverlongApart found fileBuffer) :
    (readElf fileBuffer (Store.start found)).2.Within (Declared found fileBuffer) ↔
      SizesFit found fileBuffer := by
  rw [h.readElf_eq, h.headerLoop_within hstay hover 0 (Store.start found)
    (Store.within_start _) fun _ _ => rfl]
  exact forall_congr' fun i => imp_iff_right (Nat.zero_le i)

/-- What is decided is read. -/
theorem readField_of_decides {i : Nat} {a : Word} (h : Decides found fileBuffer i a) :
    ReadField (phdrAddr found fileBuffer i) a := by
  rcases h with htype | ⟨-, hplace | ⟨-, hoff⟩⟩
  · exact Or.inl (Nat.lt_trans htype (by decide))
  · exact Or.inr hplace
  · exact Or.inl (inRange_read 4 hoff (by decide))

/-- A table that is apart has no field in a declared range. -/
theorem TableApart.fieldsStay (ht : TableApart found fileBuffer) :
    FieldsStay found fileBuffer := by
  intro j i a hload hdest hi hread
  refine absurd ?_ (ht a ⟨j, hload, hdest⟩ i hi)
  rcases hread with ⟨-, hdecides⟩ | ⟨rfl, hsizes | ⟨hpaddr, -⟩⟩
  · exact readField_of_decides hdecides
  · exact Or.inr (inRange_sizes hsizes)
  · exact Or.inr (Nat.lt_trans hpaddr (by decide))

/-- Nor the address and the sizes of any header. -/
theorem TableApart.overlongApart (ht : TableApart found fileBuffer) :
    OverlongApart found fileBuffer :=
  fun i hload _ a ha hd => ht a hd i hload.1 (Or.inr ha)

end Images

/-! ## One segment of a few bytes -/

section Sample

/-- The file header, one program header and four bytes of file. -/
def sampleFile (filesz memsz : Byte) : List Byte :=
  [0x7F, 0x45, 0x4C, 0x46, 1, 1, 1, 0, 0, 0, 0, 0, 0, 0, 0, 0,
    2, 0, 3, 0, 1, 0, 0, 0, 0, 0, 0x20, 0, 52, 0, 0, 0,
    0, 0, 0, 0, 0, 0, 0, 0, 52, 0, 32, 0, 1, 0, 0, 0, 0, 0, 0, 0,
    1, 0, 0, 0, 84, 0, 0, 0, 0, 0, 0x20, 0, 0, 0, 0x20, 0,
    filesz, 0, 0, 0, memsz, 0, 0, 0, 5, 0, 0, 0, 0, 0x10, 0, 0,
    0x55, 0x89, 0xE5, 0xC3]

/-- Where the sample file stands. -/
def sampleBuffer : Word := 0x100000

/-- Memory with the sample file. -/
def sample (filesz memsz : Byte) : Mem :=
  fun a => (sampleFile filesz memsz).getD (a - sampleBuffer).toNat 0xFF

/-- The sample file is an image, whatever its two sizes are. -/
theorem sample_image {filesz memsz : Byte} (hmagic : Magic (sample filesz memsz) sampleBuffer)
    (hnum : ePhnum (sample filesz memsz) sampleBuffer = 1)
    (hpaddr : (header (sample filesz memsz) sampleBuffer 0).pPaddr = 0x200000)
    (hmemsz : (header (sample filesz memsz) sampleBuffer 0).pMemsz.toNat < 256) :
    Image (sample filesz memsz) sampleBuffer 88 where
  fits := by decide
  ehdr := by decide
  magic := hmagic
  space := by
    rintro i ⟨hi, -⟩
    obtain rfl : i = 0 := by omega
    rw [hpaddr]
    exact Nat.le_trans (Nat.add_le_add_left (Nat.le_of_lt hmemsz) _) (by decide)
  apart := by
    rintro a ⟨i, ⟨hi, -⟩, hdest⟩ hbuffer
    obtain rfl : i = 0 := by omega
    unfold Destination InRange at hdest
    rw [hpaddr] at hdest
    unfold InRange sampleBuffer at hbuffer
    bv_omega

end Sample

/-! ## Loading -/

section Loading

variable {found : Mem} {fileBuffer : Word} {size : Nat}

/-- An image that holds its program headers and its segments, apart from each
    other. -/
structure WellFormed (found : Mem) (fileBuffer : Word) (size : Nat) : Prop
    extends Image found fileBuffer size where
  table : (ePhoff found fileBuffer).toNat + sizeofPhdr * ePhnum found fileBuffer ≤ size
  file : ∀ i, Loadable found fileBuffer i →
    (header found fileBuffer i).pOffset.toNat + (header found fileBuffer i).pFilesz.toNat
      ≤ size
  sizes : ∀ i, Loadable found fileBuffer i →
    (header found fileBuffer i).pFilesz.toNat ≤ (header found fileBuffer i).pMemsz.toNat
  disjoint : ∀ j k, Loadable found fileBuffer j → Loadable found fileBuffer k → j ≠ k →
    ∀ a, Destination found fileBuffer j a → ¬ Destination found fileBuffer k a

/-- A well-formed image after `read_elf`, at one address. -/
theorem WellFormed.readElf_content (h : WellFormed found fileBuffer size) (a : Word) :
    (readElf fileBuffer (Store.start found)).1 = eEntry found fileBuffer ∧
    (∀ i, Loadable found fileBuffer i → Destination found fileBuffer i a →
      (readElf fileBuffer (Store.start found)).2.mem a
        = content found fileBuffer (header found fileBuffer i) a) ∧
    ((∀ i, Loadable found fileBuffer i → ¬ Destination found fileBuffer i a) →
      (readElf fileBuffer (Store.start found)).2.mem a = found a) := by
  have htable := h.toImage.tableApart h.table
  have hapart := h.toImage.headersApart htable
  have hin := (h.toImage.readElf_within htable.fieldsStay htable.overlongApart).mpr h.sizes
  have hfile : ∀ i, Loadable found fileBuffer i → ∀ j : Word,
      j.toNat < (header found fileBuffer i).pFilesz.toNat →
      ¬ Declared found fileBuffer (fileBuffer + (header found fileBuffer i).pOffset + j) := by
    intro i hload j hj hd
    have hsize := h.file i hload
    exact h.apart _ hd (inRange_buffer (by omega))
  rw [h.toImage.readElf_eq] at hin ⊢
  obtain ⟨hloaded, hother⟩ :=
    headerLoop_mem hapart hfile h.sizes h.disjoint 0 (Store.start found) hin a
  exact ⟨hapart.eEntry fun a ha => hin.agrees ha, fun i => hloaded i (Nat.zero_le i),
    fun hnone => hother fun i _ => hnone i⟩

/-- A byte of a segment of such an image. -/
theorem WellFormed.readElf_at (h : WellFormed found fileBuffer size) {i : Nat}
    (hload : Loadable found fileBuffer i) {k : Word}
    (hk : k.toNat < (header found fileBuffer i).pMemsz.toNat) :
    (readElf fileBuffer (Store.start found)).2.mem ((header found fileBuffer i).pPaddr + k)
      = if k.toNat < (header found fileBuffer i).pFilesz.toNat then
          found (fileBuffer + (header found fileBuffer i).pOffset + k)
        else 0 := by
  have hdest : Destination found fileBuffer i ((header found fileBuffer i).pPaddr + k) :=
    inRange_add.mpr hk
  refine ((h.readElf_content _).2.1 i hload hdest).trans ?_
  unfold content
  rw [BitVec.add_comm _ k, BitVec.add_sub_cancel]
  refine if_congr ?_ rfl rfl
  rw [BitVec.add_comm, inRange_add]

/-- **LOADING**: the entry point, every segment with its file bytes and zeros
    behind them, and the rest of the memory. -/
theorem read_elf_loads (h : WellFormed found fileBuffer size) :
    (readElf fileBuffer (Store.start found)).1 = eEntry found fileBuffer ∧
    (∀ i, Loadable found fileBuffer i →
      ∀ k : Word, k.toNat < (header found fileBuffer i).pMemsz.toNat →
        (readElf fileBuffer (Store.start found)).2.mem ((header found fileBuffer i).pPaddr + k)
          = if k.toNat < (header found fileBuffer i).pFilesz.toNat then
              found (fileBuffer + (header found fileBuffer i).pOffset + k)
            else 0) ∧
    ∀ a, (∀ i, Loadable found fileBuffer i → ¬ Destination found fileBuffer i a) →
      (readElf fileBuffer (Store.start found)).2.mem a = found a := by
  exact ⟨(h.readElf_content 0).1, fun i hload k hk => h.readElf_at hload hk,
    fun a => (h.readElf_content a).2.2⟩

/-- The sample file with four bytes and two zeros is well formed. -/
theorem sample_wellFormed : WellFormed (sample 4 6) sampleBuffer 88 where
  toImage := sample_image (by decide) (by decide) (by decide) (by decide)
  table := by decide
  file := by
    rintro i ⟨hi, -⟩
    obtain rfl : i = 0 := Nat.lt_one_iff.mp hi
    decide
  sizes := by
    rintro i ⟨hi, -⟩
    obtain rfl : i = 0 := Nat.lt_one_iff.mp hi
    decide
  disjoint := by
    rintro j k ⟨hj, -⟩ ⟨hk, -⟩ hne
    exact absurd ((Nat.lt_one_iff.mp hj).trans (Nat.lt_one_iff.mp hk).symm) hne

/-- Four bytes and two zeros. -/
theorem read_elf_loads_sample :
    (readElf sampleBuffer (Store.start (sample 4 6))).1 = 0x200000 ∧
    (readElf sampleBuffer (Store.start (sample 4 6))).2.mem 0x200003 = 0xC3 ∧
    (readElf sampleBuffer (Store.start (sample 4 6))).2.mem 0x200005 = 0 ∧
    (readElf sampleBuffer (Store.start (sample 4 6))).2.mem 0x200006 = 0xFF := by
  obtain ⟨hentry, hloaded, hother⟩ := read_elf_loads sample_wellFormed
  refine ⟨hentry.trans (by decide), (hloaded 0 (by decide) 3 (by decide)).trans (by decide),
    (hloaded 0 (by decide) 5 (by decide)).trans (by decide), ?_⟩
  refine (hother 0x200006 ?_).trans (by decide)
  rintro i ⟨hi, -⟩
  obtain rfl : i = 0 := Nat.lt_one_iff.mp hi
  decide

end Loading

end LittleOS.ReadElf
