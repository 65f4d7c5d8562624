import NodeShader.Proofs.Functions
import NodeShader.Proofs.Naming

namespace NodeShader

open Glsl Schedule

namespace Glsl

variable {s : String}

structure IsSymbol (s : String) : Prop extends IsIdentifier s where
  head : s.toList.head? ≠ some '_'

theorem IsSymbol.isIdentifier_append {start : String} (h : IsSymbol s) (hstart : IsIdentifier start) :
    IsIdentifier (start ++ s) where
  word c hc := by
    rw [String.toList_append, List.mem_append] at hc
    exact hc.elim (hstart.word c) (h.word c)
  start := by
    obtain ⟨c, cs, hcs, hc⟩ := hstart.start
    exact ⟨c, cs ++ s.toList, by simp [hcs], hc⟩
  single := by
    rw [String.toList_append]
    refine hstart.single.append h.single fun a _ b hb ↦ .inr ?_
    rintro rfl
    exact h.head hb

end Glsl

namespace Scope

variable {s : Scope} {id : String}

theorem isSymbol_symbolBase (id : String) : IsSymbol (symbolBase id) := by
  have hid := isIdentifier_identifier id
  unfold symbolBase
  dsimp only
  split
  · refine ⟨⟨fun c hc ↦ ?_, ⟨'n', _, String.toList_append, rfl⟩, ?_⟩, by simp⟩
    · rcases List.mem_append.1 (String.toList_append ▸ hc) with hc | hc
      · obtain rfl := List.mem_singleton.1 hc
        rfl
      · exact hid.word c hc
    · rw [String.toList_append]
      exact List.isChain_cons.2 ⟨fun _ _ ↦ .inl (by decide), hid.single⟩
  · rename_i hhead
    exact ⟨hid, hhead⟩

theorem isSymbol_candidate {base : String} (h : IsSymbol base) (n : Nat) :
    IsSymbol (candidate base n) := by
  cases n with
  | zero => exact h
  | succ n =>
    refine ⟨isIdentifier_identifier _, ?_⟩
    obtain ⟨c, cs, hcs, hc⟩ := h.start
    have hword := h.word c (hcs ▸ List.mem_cons_self)
    have hhead : (candidate base (n + 1)).toList.head? = some c := by
      rw [candidate_succ, variableName, toList_identifier, head?_squeeze]
      simp [sanitize, hcs, hword, guardStart, hc]
    rw [hhead, ← List.head?_cons, ← hcs]
    exact h.head

/-- The search for a name that is not taken finds one: the candidates are different, and there is one
more of them than of names that are taken. -/
theorem firstFree_not_mem (taken : List String) (base : String) :
    firstFree (fun n ↦ !taken.contains n) base taken.length 0 ∉ taken := by
  let free : String → Bool := fun n ↦ !taken.contains n
  have hfree : ∀ name, free name ↔ name ∉ taken := by simp [free]
  intro hmem
  have hcount : taken.length + 1 ≤ taken.length := by
    refine le_length_of_obstacles (R := fun n name ↦ candidate base n = name) ?_ ?_
    · intro n m x hn hm
      exact stemPart_candidate_injective base (congrArg stemPart (hn.trans hm.symm))
    · intro n hn
      by_contra hnone
      have hcandidate : free (candidate base n) := (hfree _).2 fun hmem ↦ hnone ⟨_, hmem, rfl⟩
      exact (hfree _).1 (firstFree_free (Nat.zero_le n) (by omega) hcandidate) hmem
  omega

structure Apart (s : Scope) : Prop where
  isSymbol : ∀ id name, s.symbols.get? id = some name → IsSymbol name
  injective : ∀ id id' name, s.symbols.get? id = some name → s.symbols.get? id' = some name → id = id'

theorem apart_empty : Apart {} := ⟨nofun, nofun⟩

theorem Apart.congr {s' : Scope} (h : s.Apart) (heq : s'.symbols = s.symbols) : s'.Apart :=
  ⟨heq ▸ h.isSymbol, heq ▸ h.injective⟩

theorem Apart.symbol (h : s.Apart) (id : String) : (s.symbol id).2.Apart := by
  unfold Scope.symbol
  split
  · exact h
  · dsimp only
    have hfree := firstFree_not_mem (s.symbols.entries.map (·.2)) (symbolBase id)
    obtain ⟨m, -, hm, -⟩ := exists_first_candidate
      (fun n ↦ !(s.symbols.entries.map (·.2)).contains n) (symbolBase id)
      (s.symbols.entries.map (·.2)).length 0
    generalize firstFree _ _ _ _ = name at hfree hm
    have htaken : ∀ id', s.symbols.get? id' ≠ some name := fun id' hid' ↦
      hfree (List.mem_map.2 ⟨_, mem_of_lookup hid', rfl⟩)
    constructor
    · intro id' name' hname
      rw [Dict.get?_insert] at hname
      split at hname
      · cases hname
        exact hm ▸ isSymbol_candidate (isSymbol_symbolBase id) m
      · exact h.isSymbol id' name' hname
    · intro a b name' ha hb
      rw [Dict.get?_insert] at ha hb
      split at ha
      · rename_i hid
        cases ha
        split at hb
        · rename_i hid'
          rw [hid, hid']
        · exact absurd hb (htaken b)
      · split at hb
        · cases hb
          exact absurd ha (htaken a)
        · exact h.injective a b name' ha hb

end Scope

theorem Bench.kept_apart {b : Bench} : b.Kept
    (fun _ _ scope _ scope' ↦ scope.Apart → scope'.Apart)
    fun _ _ scope turn ↦ scope.Apart → turn.scope.Apart where
  plain _ _ _ _ _ _ hscope := hscope.symbol _
  gap _ _ _ _ _ _ _ hscope := hscope
  idle _ _ _ _ _ _ _ _ hscope := hscope
  run _ _ _ _ _ _ hrun hscope := hrun hscope
  start _ _ _ hscope := hscope
  skip _ _ _ hturn hscope := hturn hscope
  step _ _ _ hstem hturn he hscope := by
    cases hstem
    exact (he ((hturn hscope).congr rfl)).congr rfl

theorem Draft.apart_of_ofOrder {g : Graph} {lib : Library} {settings : Settings} {order : List String}
    {draft : Draft} (h : ofOrder g lib settings order = .ok draft) : draft.scope.Apart := by
  refine foldlM_eq_ok_induction (fun d ↦ d.scope.Apart) h Scope.apart_empty ?_
  intro d d' id _ hadd hd
  rcases addNode_cases hadd with ⟨-, rfl⟩ | ⟨n, t, wires, stem, scope, e, scope', hn, -, hstem, he, rfl⟩
  · exact hd
  · cases hstem
    exact (Bench.kept_apart.emit hn he (hd.congr rfl)).congr rfl

namespace Catalogue

theorem functionName_of_isSymbol {symbol : String} (h : IsSymbol symbol) :
    functionName symbol = "cf_" ++ symbol := by
  have hstart : IsIdentifier (identifier "cf_") := isIdentifier_identifier "cf_"
  exact (h.isIdentifier_append hstart).identifier_eq

theorem functionName_inj {symbol symbol' : String} (h : IsSymbol symbol) (h' : IsSymbol symbol')
    (heq : functionName symbol = functionName symbol') : symbol = symbol' := by
  rw [functionName_of_isSymbol h, functionName_of_isSymbol h'] at heq
  exact (String.append_right_inj _).1 heq

end Catalogue

end NodeShader
