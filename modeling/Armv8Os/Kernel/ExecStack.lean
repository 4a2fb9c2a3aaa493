/-
  The stack of a new program.

  1. **Specification** — `stackImage`: a page of zeros, the strings from the top down, and below them `argc` and the pointers.

  2. **Refinement** — `create_stack_section` and the two loops with `copyout` build that image (`buildStack_spec`).  A string
     is copied in one round, since it lies in the page of the stack: it ends where the one before it begins.

  The pointer goes down by the length of the string, and only then is it compared with the bottom.  That a string is no longer
  than the address of the stack is what keeps the pointer from going round (`ShortArgs`).
-/
import Armv8Os.Kernel.ExecLoad

namespace Armv8Os.Execve

open Mmu Words Pt List UInt64
open Function (update update_of_ne update_self)

/-- The number of the stack's page. -/
def stackPage : Nat := 0x60000

theorem vpn_stackBase : vpn Exec.stackBase = stackPage := by decide

/-! ## Writes to a page -/

section Write

variable {img : Image} {n n' o len : Nat} {src : Nat → UInt8}

theorem Image.write_ne (h : n' ≠ n) : img.write n o len src n' = img n' := update_of_ne h ..

theorem Image.write_isSome : (img.write n o len src n').isSome = (img n').isSome := by
  by_cases h : n' = n
  · subst h
    unfold Image.write
    rw [update_self, Option.isSome_map]
  · rw [Image.write_ne h]

/-- A page of which every byte is known. -/
def Image.Known (img : Image) (n : Nat) : Prop := ∃ f, img n = some f ∧ ∀ i, (f i).isSome

theorem Image.Known.write (h : img.Known n) : (img.write n o len src).Known n := by
  obtain ⟨f, hf, hknown⟩ := h
  refine ⟨fun i => if o ≤ i ∧ i < o + len then some (src (i - o)) else f i, ?_, fun i => ?_⟩
  · unfold Image.write
    rw [update_self, hf, Option.map_some]
  · show (if _ then _ else _ : Option UInt8).isSome
    split
    · rfl
    · exact hknown i

end Write

/-! ## The page and `copyout` -/

section Copyout

variable {m₀ m m' : Paging} {img : Image} {pd pd' : Pgdir} {va : UInt64}

theorem createStackSection_spec (h : Building m₀ pd.m img) (hstack : createStackSection pd Exec.stackBase = .ok pd') :
    Building m₀ pd'.m (update img stackPage (some fun _ => some 0)) ∧
      pd'.sections = ⟨0, Exec.stackBase, Exec.stackBase + pageSize⟩ :: pd.sections := by
  obtain ⟨⟨ka, m₁⟩, halloc, hstack⟩ := bind_eq_ok.mp hstack
  obtain ⟨m₂, hmap, hstack⟩ := bind_eq_ok.mp hstack
  obtain rfl := Except.ok.inj hstack
  obtain ⟨free, hfree, rfl⟩ := allocPageForUser_ok (paging_eq_ok.mp halloc)
  have hpage : KernelPage ka := h.space.wf.free.page ka (hfree ▸ mem_cons_self)
  have hfill : ∀ a, pageBase a ≠ ka → blit pd.m.word ka 4096 (fun _ => 0) a = pd.m.word a := fun a ha => blit_wholePage hpage ha
  obtain ⟨hbuild, -, -⟩ := h.map hfree hfill (by decide) (by decide) (by decide) (paging_eq_ok.mp hmap)
    (f := fun _ => some 0) fun o ho b hb => by
      have hnat : (UInt64.ofNat o).toNat = o := by
        rw [toNat_ofNat']
        omega
      rw [readByte_blit, toNat_inPage hpage (by omega), if_pos (by omega)]
      exact Option.some.inj hb
  exact ⟨hbuild, rfl⟩

theorem vpn_pageBase (va : UInt64) : vpn (pageBase va) = vpn va := by
  have hbase := toNat_pageBase va
  unfold vpn
  omega

section

variable {rounds : Nat} {bytes : List UInt8} (hne : bytes ≠ []) (hlen : va.toNat % 4096 + bytes.length ≤ 4096)
include hne hlen

/-- One round is enough for bytes that stay in one page. -/
theorem copyout_once {m₁ : Paging} {pte : UInt64} (hget : paging (getPte m (pageBase va) false) = .ok (pte, m₁)) :
    copyout (rounds + 1) m va bytes =
      .ok { m with word := blit m.word (p2k (pteAddress (m.word pte)) + (va - pageBase va)) bytes.length fun i => bytes.getD i 0 } := by
  obtain ⟨b, rest, rfl⟩ := exists_cons_of_ne_nil hne
  have hroom := toNat_pageRest va
  have hn : min (pageSize - (va - pageBase va)).toNat (rest.length + 1) = (b :: rest).length := by
    rw [length_cons] at hlen ⊢
    omega
  refine bind_eq_ok.mpr ⟨_, hget, ?_⟩
  dsimp only
  rw [hn, drop_length]
  unfold copyout
  rfl

theorem copyout_spec (h : Building m₀ m img) (hmapped : (img (vpn va)).isSome) (hcopy : copyout rounds m va bytes = .ok m') :
    Building m₀ m' (img.write (vpn va) (va.toNat % 4096) bytes.length fun i => bytes.getD i 0) := by
  cases rounds with
  | zero =>
    obtain ⟨b, rest, rfl⟩ := exists_cons_of_ne_nil hne
    cases hcopy
  | succ rounds =>
    obtain ⟨⟨pte, m₁⟩, hget⟩ : ∃ r, paging (getPte m (pageBase va) false) = .ok r := by
      obtain ⟨b, rest, rfl⟩ := exists_cons_of_ne_nil hne
      obtain ⟨r, hget, -⟩ := bind_eq_ok.mp hcopy
      exact ⟨r, hget⟩
    rw [copyout_once hne hlen hget] at hcopy
    obtain rfl := Except.ok.inj hcopy
    have hat : pageAt m va = some (p2k (pteAddress (m.word pte))) := by
      rw [← pageAt_vpn m (vpn_pageBase va)]
      refine pageAt_of_getPte (paging_eq_ok.mp hget) ?_
      rw [h.mapped, vpn_pageBase]
      exact hmapped
    have hwritten := (h.write hat (va - pageBase va) bytes.length (by rw [toNat_sub_pageBase]; exact hlen)
      fun i => bytes.getD i 0).1
    rw [toNat_sub_pageBase] at hwritten
    exact hwritten

end

end Copyout

/-! ## The arguments -/

/-- The stack while the arguments are pushed. -/
structure Stack where
  sp : UInt64
  ustack : List UInt64
  img : Image

def Stack.write (k : Stack) (sp : UInt64) (bytes : List UInt8) : Image :=
  k.img.write stackPage (sp.toNat % 4096) bytes.length fun i => bytes.getD i 0

/-- A string goes onto the stack. -/
def Stack.push (k : Stack) (str : List UInt8) : Stack :=
  let sp := Exec.pushDown k.sp (UInt64.ofNat (str.length + 1))
  { sp := sp, ustack := k.ustack ++ [sp], img := k.write sp (str ++ [0]) }

/-- The stack to start with. -/
def Stack.start (img : Image) : Stack where
  sp := Exec.stackBase + pageSize - 32
  ustack := []
  img := update img stackPage (some fun _ => some 0)

/-- The image with the finished stack. -/
def stackImage (argv : List (List UInt8)) (img : Image) : Image :=
  let k := argv.foldl Stack.push (Stack.start img)
  k.write (Exec.pushDown k.sp (UInt64.ofNat ((argv.length + 2) * 8))) ((UInt64.ofNat argv.length :: k.ustack ++ [0]).flatMap le64)

/-- No string is longer than the address of the stack. -/
def ShortArgs (argv : List (List UInt8)) : Prop := ∀ str ∈ argv, str.length < 0x60000000

/-- The pointer is in the page, below the first 32 bytes. -/
structure InStack (sp : UInt64) : Prop where
  bottom : 0x60000000 ≤ sp.toNat
  top : sp.toNat ≤ 0x60000fe0

section Push

variable {m₀ : Paging} {a a' : Args} {k : Stack} {sp n : UInt64} {argv : List (List UInt8)}

theorem pushDown_spec (h : InStack sp) (hn : n.toNat ≤ 0x60000000) (hcheck : ¬ Exec.pushDown sp n < Exec.stackBase) :
    InStack (Exec.pushDown sp n) ∧ (Exec.pushDown sp n).toNat + n.toNat ≤ sp.toNat ∧ vpn (Exec.pushDown sp n) = stackPage := by
  obtain ⟨hbottom, htop⟩ := h
  have hge : 0x60000000 ≤ (Exec.pushDown sp n).toNat := UInt64.le_iff_toNat_le.mp (UInt64.not_lt.mp hcheck)
  have hsub : (sp - n).toNat = sp.toNat - n.toNat := toNat_diff (by omega)
  have hmod : ((sp - n) % 16).toNat = (sp.toNat - n.toNat) % 16 := by
    rw [UInt64.toNat_mod, hsub]
    rfl
  have hdown : (Exec.pushDown sp n).toNat = (sp.toNat - n.toNat) - (sp.toNat - n.toNat) % 16 := by
    unfold Exec.pushDown
    rw [toNat_diff (by omega), hsub, hmod]
  refine ⟨⟨hge, by omega⟩, by omega, ?_⟩
  unfold vpn stackPage
  omega

/-- The stack that the loop has built so far. -/
structure Pushing (m₀ : Paging) (a : Args) (k : Stack) : Prop where
  building : Building m₀ a.m k.img
  sp : a.sp = k.sp
  ustack : a.ustack = k.ustack
  length : a.ustack.length = a.argc
  inStack : InStack a.sp
  mapped : (k.img stackPage).isSome

/-- `copyout` to the stack. -/
theorem Pushing.copyout {m' : Paging} {rounds : Nat} {bytes : List UInt8} (h : Pushing m₀ a k) (hne : bytes ≠ [])
    (hn : n.toNat = bytes.length) (hsmall : n.toNat ≤ 0x60000000) (hcheck : ¬ Exec.pushDown a.sp n < Exec.stackBase)
    (hcopy : copyout rounds a.m (Exec.pushDown a.sp n) bytes = .ok m') :
    Building m₀ m' (k.write (Exec.pushDown a.sp n) bytes) ∧ InStack (Exec.pushDown a.sp n) := by
  obtain ⟨hin, hroom, hvpn⟩ := pushDown_spec h.inStack hsmall hcheck
  have hb := hin.bottom
  have htop := h.inStack.top
  have hspec := copyout_spec hne (by omega) h.building (by rw [hvpn]; exact h.mapped) hcopy
  rw [hvpn] at hspec
  exact ⟨hspec, hin⟩

/-- One string. -/
theorem Pushing.push {m' : Paging} {rounds : Nat} {str : List UInt8} (h : Pushing m₀ a k)
    (hlen : (UInt64.ofNat (str.length + 1)).toNat = (str ++ [0]).length)
    (hsmall : (UInt64.ofNat (str.length + 1)).toNat ≤ 0x60000000)
    (hcheck : ¬ Exec.pushDown a.sp (UInt64.ofNat (str.length + 1)) < Exec.stackBase)
    (hcopy : Execve.copyout rounds a.m (Exec.pushDown a.sp (UInt64.ofNat (str.length + 1))) (str ++ [0]) = .ok m') :
    Pushing m₀ ⟨a.argc + 1, Exec.pushDown a.sp (UInt64.ofNat (str.length + 1)),
      a.ustack ++ [Exec.pushDown a.sp (UInt64.ofNat (str.length + 1))], m'⟩ (k.push str) := by
  have hne : str ++ [0] ≠ [] := append_ne_nil_of_right_ne_nil _ (cons_ne_nil _ _)
  obtain ⟨hbuild, hin⟩ := h.copyout hne hlen hsmall hcheck hcopy
  rw [h.sp] at hbuild hin ⊢
  refine ⟨hbuild, rfl, ?_, ?_, hin, ?_⟩
  · show a.ustack ++ _ = k.ustack ++ _
    rw [h.ustack]
  · show (a.ustack ++ [_]).length = a.argc + 1
    rw [length_append, length_singleton, h.length]
  · unfold Stack.push Stack.write
    rw [Image.write_isSome]
    exact h.mapped

/-- A short string and its 0. -/
theorem toNat_length_arg {str : List UInt8} (h : str.length < 0x60000000) :
    (UInt64.ofNat (str.length + 1)).toNat = (str ++ [0]).length ∧ (UInt64.ofNat (str.length + 1)).toNat ≤ 0x60000000 := by
  rw [toNat_ofNat', length_append, length_singleton]
  omega

/-- The loop over the strings. -/
theorem pushArgs_spec (h : Pushing m₀ a k) (hshort : ShortArgs argv) (hpush : pushArgs argv a = .ok (true, a')) :
    Pushing m₀ a' (argv.foldl Stack.push k) ∧ a'.argc = a.argc + argv.length ∧ (a.argc ≤ Exec.maxArg → a'.argc ≤ Exec.maxArg) := by
  induction argv generalizing a k with
  | nil =>
    obtain ⟨-, rfl⟩ := Prod.mk.inj (Except.ok.inj hpush)
    exact ⟨h, rfl, id⟩
  | cons str argv ih =>
    obtain ⟨hstr, hshort⟩ := forall_mem_cons.mp hshort
    obtain ⟨hlen, hsmall⟩ := toNat_length_arg hstr
    unfold pushArgs at hpush
    split at hpush
    next => cases hpush
    next hmany =>
      dsimp only at hpush
      split at hpush
      next => cases hpush
      next hcheck =>
        obtain ⟨m, hcopy, hrest⟩ := bind_eq_ok.mp hpush
        obtain ⟨hpushing, hargc, hmax⟩ := ih (h.push hlen hsmall hcheck hcopy) hshort hrest
        refine ⟨hpushing, ?_, fun _ => hmax ?_⟩
        · rw [hargc, length_cons]
          show a.argc + 1 + argv.length = _
          omega
        · show a.argc + 1 ≤ Exec.maxArg
          omega

theorem length_le64 (ws : List UInt64) : (ws.flatMap le64).length = ws.length * 8 := by
  induction ws with
  | nil => rfl
  | cons w ws ih =>
    rw [flatMap_cons, length_append, ih, length_cons]
    show 8 + _ = _
    omega

/-- The bytes of `argc` and `ustack`. -/
theorem Pushing.ustack_bytes (h : Pushing m₀ a k) (hle : a.argc ≤ Exec.maxArg) :
    (UInt64.ofNat ((a.argc + 2) * 8)).toNat = ((UInt64.ofNat a.argc :: a.ustack ++ [0]).flatMap le64).length ∧
      (UInt64.ofNat ((a.argc + 2) * 8)).toNat ≤ 0x60000000 ∧ (UInt64.ofNat a.argc :: a.ustack ++ [0]).flatMap le64 ≠ [] := by
  have hle' : a.argc ≤ 32 := hle
  have hlen : (UInt64.ofNat ((a.argc + 2) * 8)).toNat = (a.argc + 2) * 8 := by
    rw [toNat_ofNat']
    omega
  have hbytes : ((UInt64.ofNat a.argc :: a.ustack ++ [0]).flatMap le64).length = (a.argc + 2) * 8 := by
    rw [length_le64, length_append, length_cons, length_singleton, h.length]
  refine ⟨hlen.trans hbytes.symm, by omega, fun hnil => ?_⟩
  rw [hnil] at hbytes
  cases hbytes

/-- The stack is empty at the beginning. -/
theorem Pushing.start {m : Paging} {img : Image} (h : Building m₀ m (update img stackPage (some fun _ => some 0))) :
    Pushing m₀ ⟨0, Exec.stackBase + pageSize - 32, [], m⟩ (Stack.start img) := by
  have htop : InStack (Exec.stackBase + pageSize - 32) := ⟨by decide, by decide⟩
  refine ⟨h, rfl, rfl, rfl, htop, ?_⟩
  show (update img stackPage _ stackPage).isSome
  rfl

end Push

/-- The finished stack. -/
theorem buildStack_spec {m₀ : Paging} {img : Image} {pd pd' : Pgdir} {a : Args} {argv : Option (List (List UInt8))}
    (h : Building m₀ pd.m img) (hshort : ShortArgs (argv.getD [])) (hbuild : buildStack argv pd = .ok (true, a, pd')) :
    Building m₀ pd'.m (stackImage (argv.getD []) img) ∧
      pd'.sections = ⟨0, Exec.stackBase, Exec.stackBase + pageSize⟩ :: pd.sections := by
  obtain ⟨pd₁, hstack, hbuild⟩ := bind_eq_ok.mp hbuild
  obtain ⟨⟨ok₁, a₁⟩, hargs, hbuild⟩ := bind_eq_ok.mp hbuild
  obtain ⟨hbuild1, hsections⟩ := createStackSection_spec h hstack
  cases ok₁ with
  | false => cases (Prod.mk.inj (Except.ok.inj hbuild)).1
  | true =>
    obtain ⟨⟨ok₂, a₂⟩, hustack, hok⟩ := bind_eq_ok.mp hbuild
    obtain ⟨rfl, hpair⟩ := Prod.mk.inj (Except.ok.inj hok)
    obtain ⟨rfl, rfl⟩ := Prod.mk.inj hpair
    obtain ⟨hpushing, hargc, hmax⟩ := pushArgs_spec (Pushing.start hbuild1) hshort hargs
    have hargc' : a₁.argc = (argv.getD []).length := hargc.trans (Nat.zero_add _)
    obtain ⟨hlen, hsmall, hne⟩ := hpushing.ustack_bytes (hmax (Nat.zero_le _))
    unfold pushUstack at hustack
    dsimp only at hustack
    split at hustack
    next => cases hustack
    next hcheck =>
      obtain ⟨m, hcopy, hlast⟩ := bind_eq_ok.mp hustack
      obtain ⟨-, rfl⟩ := Prod.mk.inj (Except.ok.inj hlast)
      obtain ⟨hbuilt, -⟩ := hpushing.copyout hne hlen hsmall hcheck hcopy
      refine ⟨?_, hsections⟩
      rw [hpushing.sp, hpushing.ustack, hargc'] at hbuilt
      exact hbuilt

theorem Stack.write_ne (k : Stack) (sp : UInt64) (bytes : List UInt8) {n : Nat} (h : n ≠ stackPage) :
    k.write sp bytes n = k.img n := Image.write_ne h

theorem Stack.write_known {k : Stack} (h : k.img.Known stackPage) (sp : UInt64) (bytes : List UInt8) :
    (k.write sp bytes).Known stackPage := h.write

/-- Other pages are left alone, and of the stack every byte is known. -/
theorem foldl_push_img (argv : List (List UInt8)) (k : Stack) :
    (∀ n, n ≠ stackPage → (argv.foldl Stack.push k).img n = k.img n) ∧
      (k.img.Known stackPage → (argv.foldl Stack.push k).img.Known stackPage) := by
  induction argv generalizing k with
  | nil => exact ⟨fun _ _ => rfl, id⟩
  | cons str argv ih =>
    obtain ⟨hother, hknown⟩ := ih (k.push str)
    exact ⟨fun n hn => (hother n hn).trans (k.write_ne _ _ hn), fun h => hknown (Stack.write_known h _ _)⟩

theorem stackImage_ne (argv : List (List UInt8)) (img : Image) {n : Nat} (h : n ≠ stackPage) :
    stackImage argv img n = img n := by
  unfold stackImage
  rw [Stack.write_ne _ _ _ h, (foldl_push_img argv _).1 n h]
  exact update_of_ne h ..

theorem stackImage_known (argv : List (List UInt8)) (img : Image) : (stackImage argv img).Known stackPage := by
  refine Stack.write_known ((foldl_push_img argv _).2 ⟨fun _ => some 0, ?_, fun _ => rfl⟩) _ _
  exact update_self stackPage _ img

end Armv8Os.Execve
