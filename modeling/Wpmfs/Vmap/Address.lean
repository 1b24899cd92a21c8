import Wpmfs.Vmap.Basic

/-!
# Block offsets

Pointers in persistent memory are 64-bit block offsets: 57 bits for the byte offset and 7 for the
area it is in, 0 for the direct mapping. Addresses are named by the block that is behind them, and
a word of memory by its block and its place in it; an index past the end of a block is in the next
ones.
-/

namespace Wpmfs.Vmap.Sb

variable {s : Sb} {b b' p q i i' j v v' : ℕ}

/-- `pmfs_get_block_off`: the offset of a block in the direct mapping. -/
def pmfsGetBlockOff (b : ℕ) : ℕ := b * 4096 % 2 ^ 64

/-- `wpmfs_get_block`, with `vmap` enabled; `none` is a null pointer, or one that is not mapped. -/
def wpmfsGetBlock (s : Sb) (blockoff : ℕ) : Option ℕ :=
  let val := blockoff % 2 ^ 57
  match blockoff / 2 ^ 57 % 2 ^ 7 with
  | 0 => if val = 0 then none else some (val / 4096)
  | 1 => if val = 0 then none else (s.area .static).pte (val / 4096)
  | 2 => (s.area .dynamic).pte (val / 4096)
  | _ => none

/-- `wpmfs_get_pfn`, which reads the mapping table; `none` is a failed assertion. -/
def wpmfsGetPfn (s : Sb) (blockoff : ℕ) : Option ℕ :=
  match blockoff / 2 ^ 57 % 2 ^ 7 with
  | 0 => some (blockoff / 4096)
  | 2 => some ((s.area .dynamic).slot (blockoff % 2 ^ 57 / 4096))
  | _ => none

/-- The word `i` of the page of a block. -/
def word (s : Sb) (b i : ℕ) : ℕ := s.words (b + i / 512) (i % 512)

def setWord (b i v : ℕ) (s : Sb) : Sb :=
  { s with
    words := Function.update s.words (b + i / 512)
      (Function.update (s.words (b + i / 512)) (i % 512) v) }

/-- `memcpy_page`. -/
def memcpyPage (dst src : ℕ) (s : Sb) : Sb :=
  if dst = src then s else { s with words := Function.update s.words dst (s.words src) }

theorem wpmfsGetBlock_direct (hb : 0 < b) (hlt : b < 2 ^ 45) :
    s.wpmfsGetBlock (pmfsGetBlockOff b) = some b := by
  have hval : pmfsGetBlockOff b % 2 ^ 57 = b * 4096 := by
    rw [pmfsGetBlockOff]
    omega
  have hloc : pmfsGetBlockOff b / 2 ^ 57 % 2 ^ 7 = 0 := by
    rw [pmfsGetBlockOff]
    omega
  rw [wpmfsGetBlock, hval, hloc, if_neg (by omega), Nat.mul_div_cancel b (by decide)]
  rfl

theorem word_of_lt (hi : i < 512) : s.word b i = s.words b i := by
  rw [word, Nat.div_eq_of_lt hi, Nat.mod_eq_of_lt hi, Nat.add_zero]

@[simp] theorem setWord_alloc : (s.setWord b i v).alloc = s.alloc := rfl
@[simp] theorem setWord_area : (s.setWord b i v).area = s.area := rfl
@[simp] theorem setWord_pageIndex : (s.setWord b i v).pageIndex = s.pageIndex := rfl

theorem words_setWord (hi : i < 512) : (s.setWord b i v).words =
    Function.update s.words b (Function.update (s.words b) i v) := by
  rw [setWord, Nat.div_eq_of_lt hi, Nat.mod_eq_of_lt hi, Nat.add_zero]

/-- Two places are one when they are the same word of the same block. -/
theorem word_setWord : (s.setWord b i v).word b' i' =
    if b + i / 512 = b' + i' / 512 ∧ i % 512 = i' % 512 then v else s.word b' i' := by
  simp only [word, setWord, Function.update_apply, eq_comm (a := b' + i' / 512)]
  by_cases hb : b + i / 512 = b' + i' / 512
  · rw [if_pos hb, Function.update_apply, hb]
    exact if_congr (by simp [eq_comm]) rfl rfl
  · rw [if_neg hb, if_neg fun h => hb h.1]

@[simp] theorem memcpyPage_alloc : (s.memcpyPage p q).alloc = s.alloc := by
  unfold memcpyPage
  split <;> rfl

@[simp] theorem memcpyPage_area : (s.memcpyPage p q).area = s.area := by
  unfold memcpyPage
  split <;> rfl

@[simp] theorem memcpyPage_pageIndex : (s.memcpyPage p q).pageIndex = s.pageIndex := by
  unfold memcpyPage
  split <;> rfl

theorem memcpyPage_words : (s.memcpyPage p q).words = Function.update s.words p (s.words q) := by
  unfold memcpyPage
  split
  · rename_i h
    rw [h, Function.update_eq_self]
  · rfl

end Wpmfs.Vmap.Sb
