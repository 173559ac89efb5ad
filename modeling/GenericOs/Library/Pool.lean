import Mathlib.Data.Fintype.Defs
import Mathlib.Data.List.Basic
import GenericOs.Library.Linearizable

/-!
# A pool that threads take things from and put things back into

Where a thing is, at any moment of any history of the atomic pool: nobody has two claims to it.
-/

namespace Pool

open Linearizable

inductive Op (β : Type*) where
  | take
  | put (b : β)
  deriving DecidableEq

/-- A thing that is taken may be any one that is there. -/
inductive Step {β : Type*} : Set β → Op β → Option β → Set β → Prop
  | take {F : Set β} {b : β} (hb : b ∈ F) : Step F .take (some b) (F \ {b})
  | empty : Step ∅ .take none ∅
  | put {F : Set β} {b : β} : Step F (.put b) none (insert b F)

abbrev History (Thread β : Type*) := List (Event Thread (Op β) (Option β))

variable {β Thread : Type*} {start F F' : Set β} {h hist : History Thread β}
  {φ φ' : Thread → Phase (Op β) (Option β)} {b : β} {t u : Thread} {op : Op β} {res : Option β}

/-- `b` was handed out, and nobody has called since to put it back. -/
def Held (h : History Thread β) (b : β) : Prop :=
  ∃ before t after, h = before ++ .ret t .take (some b) :: after ∧ ∀ u, .call u (.put b) ∉ after

/-- Only what is held is put back. -/
def Proper (h : History Thread β) : Prop :=
  ∀ before u b after, h = before ++ .call u (.put b) :: after → Held before b

theorem held_nil : ¬Held ([] : History Thread β) b := by
  rintro ⟨_, _, _, he, -⟩
  simp at he

theorem held_cons {e : Event Thread (Op β) (Option β)} : Held (e :: h) b ↔
    ((∃ t, e = .ret t .take (some b)) ∧ ∀ u, .call u (.put b) ∉ h) ∨ Held h b := by
  constructor
  · rintro ⟨before, t, after, he, hput⟩
    rcases before with _ | ⟨e', before⟩
    · obtain ⟨rfl, rfl⟩ := List.cons.inj he
      exact Or.inl ⟨⟨t, rfl⟩, hput⟩
    · obtain ⟨-, rfl⟩ := List.cons.inj he
      exact Or.inr ⟨before, t, after, rfl, hput⟩
  · rintro (⟨⟨t, rfl⟩, hput⟩ | ⟨before, t, after, rfl, hput⟩)
    · exact ⟨[], t, h, rfl, hput⟩
    · exact ⟨e :: before, t, after, rfl, hput⟩

instance decidableHeld [DecidableEq β] [DecidableEq Thread] [Fintype Thread] (b : β) :
    ∀ h : History Thread β, Decidable (Held h b)
  | [] => .isFalse held_nil
  | _ :: h =>
    have : Decidable (Held h b) := decidableHeld b h
    decidable_of_iff' _ held_cons

theorem held_concat {e : Event Thread (Op β) (Option β)} : Held (h ++ [e]) b ↔
    (∃ t, e = .ret t .take (some b)) ∨ (Held h b ∧ ∀ u, e ≠ .call u (.put b)) := by
  constructor
  · rintro ⟨before, t, after, he, hput⟩
    rcases List.eq_nil_or_concat' after with rfl | ⟨after, e', rfl⟩
    · obtain ⟨-, hlast⟩ := List.append_inj' he rfl
      exact Or.inl ⟨t, by simpa using hlast⟩
    · rw [← List.cons_append, ← List.append_assoc] at he
      obtain ⟨rfl, hlast⟩ := List.append_inj' he rfl
      obtain rfl : e = e' := by simpa using hlast
      refine Or.inr ⟨⟨before, t, after, rfl, fun u hu => hput u (by simp [hu])⟩, ?_⟩
      rintro u rfl
      exact hput u (by simp)
  · rintro (⟨t, rfl⟩ | ⟨⟨before, t, after, rfl, hput⟩, he⟩)
    · exact ⟨h, t, [], rfl, by simp⟩
    · refine ⟨before, t, after ++ [e], by simp, fun u hu => ?_⟩
      rcases List.mem_append.mp hu with hu | hu
      · exact hput u hu
      · exact he u (List.mem_singleton.mp hu).symm

theorem held_concat_of_ne {e : Event Thread (Op β) (Option β)} (he : ∀ t b, e ≠ .ret t .take (some b))
    (hput : ∀ t b, e ≠ .call t (.put b)) (b : β) : Held (h ++ [e]) b ↔ Held h b := by
  rw [held_concat]
  simp [he, hput]

theorem Proper.of_append {h' : History Thread β} (hp : Proper (h ++ h')) : Proper h := by
  rintro before u b after rfl
  exact hp before u b (after ++ h') (by simp)

theorem Proper.held (hp : Proper (h ++ [.call u (.put b)])) : Held h b := hp h u b [] rfl

theorem proper_nil : Proper ([] : History Thread β) := by
  intro before u b after he
  simp at he

theorem Proper.concat {e : Event Thread (Op β) (Option β)} (hp : Proper h)
    (he : ∀ u b, e = .call u (.put b) → Held h b) : Proper (h ++ [e]) := by
  intro before u b after heq
  rcases List.eq_nil_or_concat' after with rfl | ⟨after, e', rfl⟩
  · obtain ⟨rfl, hlast⟩ := List.append_inj' heq rfl
    exact he u b (by simpa using hlast)
  · rw [← List.cons_append, ← List.append_assoc] at heq
    exact hp before u b after (List.append_inj' heq rfl).1

/-! ## Where a thing is -/

/-- In `taken` it left the pool and is not returned yet, in `coming` it is about to be back. -/
inductive Place (Thread : Type*) where
  | never
  | free
  | taken (t : Thread)
  | held
  | coming (t : Thread)

/-- Everything is in one place. -/
structure Places (start : Set β) (h : History Thread β) (φ : Thread → Phase (Op β) (Option β)) (F : Set β)
    (place : β → Place Thread) : Prop where
  never : ∀ b, place b = .never ↔ b ∉ start
  free : ∀ b, place b = .free ↔ b ∈ F
  taken : ∀ b t, place b = .taken t ↔ φ t = .done .take (some b)
  held : ∀ b, place b = .held ↔ Held h b
  coming : ∀ b t, place b = .coming t ↔ φ t = .called (.put b)

open scoped Classical in
theorem places_init : Places start ([] : History Thread β) (fun _ => .idle) start
    fun b => if b ∈ start then .free else .never := by
  constructor
  · intro b; by_cases hb : b ∈ start <;> simp [hb]
  · intro b; by_cases hb : b ∈ start <;> simp [hb]
  · intro b t; by_cases hb : b ∈ start <;> simp [hb]
  · intro b; by_cases hb : b ∈ start <;> simp [hb, held_nil]
  · intro b t; by_cases hb : b ∈ start <;> simp [hb]

variable {place : β → Place Thread} [DecidableEq Thread]

/-- A step of `t` that moves nothing. -/
theorem Places.stay {p : Phase (Op β) (Option β)} {h' : History Thread β} (hpl : Places start h φ F place)
    (hheld : ∀ b, Held h' b ↔ Held h b)
    (hold : ∀ b, φ t ≠ .done .take (some b) ∧ φ t ≠ .called (.put b))
    (hnew : ∀ b, p ≠ .done .take (some b) ∧ p ≠ .called (.put b)) :
    Places start h' (Function.update φ t p) F place := by
  refine ⟨hpl.never, hpl.free, fun b u => ?_, fun b => ?_, fun b u => ?_⟩
  · rw [hpl.taken, Function.update_apply]
    split_ifs with hu
    · subst hu; exact iff_of_false (hold b).1 (hnew b).1
    · rfl
  · rw [hpl.held, hheld]
  · rw [hpl.coming, Function.update_apply]
    split_ifs with hu
    · subst hu; exact iff_of_false (hold b).2 (hnew b).2
    · rfl

open scoped Classical in
/-- A step of `t` that moves `b`, and nothing else. -/
theorem Places.move {p : Phase (Op β) (Option β)} {h' : History Thread β} {x : Place Thread}
    (hpl : Places start h φ F place)
    (hfrom : place b ≠ .never ∧ ∀ u, u ≠ t → place b ≠ .taken u ∧ place b ≠ .coming u) (hto : x ≠ .never)
    (hold : ∀ c, c ≠ b → φ t ≠ .done .take (some c) ∧ φ t ≠ .called (.put c))
    (hfree : ∀ c, c ∈ F' ↔ c = b ∧ x = .free ∨ c ≠ b ∧ c ∈ F)
    (hheld : ∀ c, Held h' c ↔ c = b ∧ x = .held ∨ c ≠ b ∧ Held h c)
    (htaken : ∀ c u, c = b ∧ x = .taken u ↔ u = t ∧ p = .done .take (some c))
    (hcoming : ∀ c u, c = b ∧ x = .coming u ↔ u = t ∧ p = .called (.put c)) :
    Places start h' (Function.update φ t p) F' (Function.update place b x) := by
  have hplace : ∀ c y, Function.update place b x c = y ↔ c = b ∧ x = y ∨ c ≠ b ∧ place c = y := by
    intro c y
    by_cases hc : c = b
    · subst hc; simp
    · simp [hc]
  have hphase : ∀ u d, Function.update φ t p u = d ↔ u = t ∧ p = d ∨ u ≠ t ∧ φ u = d := by
    intro u d
    by_cases hu : u = t
    · subst hu; simp
    · simp [hu]
  refine ⟨fun c => ?_, fun c => ?_, fun c u => ?_, fun c => ?_, fun c u => ?_⟩
  · have hnever := hpl.never b
    rw [hplace, hpl.never]
    grind
  · rw [hplace, hfree, hpl.free]
  · rw [hplace, hphase, htaken, hpl.taken]
    have hmine := hpl.taken b u
    grind
  · rw [hplace, hheld, hpl.held]
  · rw [hplace, hphase, hcoming, hpl.coming]
    have hmine := hpl.coming b u
    grind

open scoped Classical in
theorem Places.call_put (hpl : Places start h φ F place) (hφ : φ t = .idle) (hheld : Held h b) :
    Places start (h ++ [.call t (.put b)]) (Function.update φ t (.called (.put b))) F
      (Function.update place b (.coming t)) := by
  have hb := (hpl.held b).mpr hheld
  have hin : b ∉ F := fun hF => by simp [(hpl.free b).mpr hF] at hb
  apply hpl.move <;> grind [held_concat]

open scoped Classical in
theorem Places.take (hpl : Places start h φ F place) (hφ : φ t = .called .take) (hb : b ∈ F) :
    Places start h (Function.update φ t (.done .take (some b))) (F \ {b}) (Function.update place b (.taken t)) := by
  have hb := (hpl.free b).mpr hb
  have hout : ¬Held h b := fun hheld => by simp [(hpl.held b).mpr hheld] at hb
  apply hpl.move <;> grind [held_concat]

open scoped Classical in
theorem Places.put (hpl : Places start h φ F place) (hφ : φ t = .called (.put b)) :
    Places start h (Function.update φ t (.done (.put b) none)) (insert b F) (Function.update place b .free) := by
  have hb := (hpl.coming b t).mpr hφ
  have hout : ¬Held h b := fun hheld => by simp [(hpl.held b).mpr hheld] at hb
  apply hpl.move <;> grind [held_concat]

open scoped Classical in
theorem Places.ret_take (hpl : Places start h φ F place) (hφ : φ t = .done .take (some b)) :
    Places start (h ++ [.ret t .take (some b)]) (Function.update φ t .idle) F (Function.update place b .held) := by
  have hb := (hpl.taken b t).mpr hφ
  have hin : b ∉ F := fun hF => by simp [(hpl.free b).mpr hF] at hb
  apply hpl.move <;> grind [held_concat]

/-- In the atomic pool everything always has its place. -/
theorem exists_places (ha : Atomic Step start h φ F) (hp : Proper h) : ∃ place, Places start h φ F place := by
  induction ha with
  | init => exact ⟨_, places_init⟩
  | @does h φ F t h' p F' ha hd ih =>
    generalize hφ : φ t = p₀ at hd
    cases hd with
    | @call _ op =>
      obtain ⟨place, hpl⟩ := ih hp.of_append
      cases op with
      | take =>
        exact ⟨place, hpl.stay (held_concat_of_ne (by simp) (by simp)) (by simp [hφ]) (by simp)⟩
      | put b => exact ⟨_, hpl.call_put hφ hp.held⟩
    | effect hs =>
      obtain ⟨place, hpl⟩ := ih hp
      cases hs with
      | take hb => exact ⟨_, hpl.take hφ hb⟩
      | empty => exact ⟨place, hpl.stay (fun _ => Iff.rfl) (by simp [hφ]) (by simp)⟩
      | put => exact ⟨_, hpl.put hφ⟩
    | @ret _ op res =>
      obtain ⟨place, hpl⟩ := ih hp.of_append
      rcases op with _ | b
      · rcases res with _ | b
        · exact ⟨place, hpl.stay (held_concat_of_ne (by simp) (by simp)) (by simp [hφ]) (by simp)⟩
        · exact ⟨_, hpl.ret_take hφ⟩
      · exact ⟨place, hpl.stay (held_concat_of_ne (by simp) (by simp)) (by simp [hφ]) (by simp)⟩

/-! ## What the callers see -/

/-- What is held was in the pool at the start, and is not in it now. -/
theorem held_mem (ha : Atomic Step start h φ F) (hp : Proper h) (hb : Held h b) : b ∈ start ∧ b ∉ F := by
  obtain ⟨place, hpl⟩ := exists_places ha hp
  have hplace := (hpl.held b).mpr hb
  constructor
  · by_contra hno
    rw [(hpl.never b).mpr hno] at hplace
    cases hplace
  · intro hF
    rw [(hpl.free b).mpr hF] at hplace
    cases hplace

/-- Nothing that is held is handed out again. -/
theorem not_held_of_returned (hl : IsLinearizable Step start (h ++ [.ret t .take (some b)])) (hp : Proper h) :
    ¬Held h b := by
  intro hheld
  obtain ⟨φ, F, ha⟩ := hl
  obtain ⟨φ₀, F₀, ha₀, hret⟩ := ha.before
  obtain ⟨place, hpl⟩ := exists_places ha₀ hp
  have htaken := (hpl.taken b t).mpr (hret t .take (some b) rfl)
  rw [(hpl.held b).mpr hheld] at htaken
  cases htaken

/-- Between two returns of the same thing somebody calls to put it back. -/
theorem put_between {before between after : History Thread β}
    (hl : IsLinearizable Step start (before ++ .ret t .take (some b) :: (between ++ .ret u .take (some b) :: after)))
    (hp : Proper (before ++ .ret t .take (some b) :: (between ++ .ret u .take (some b) :: after))) :
    ∃ v, .call v (.put b) ∈ between := by
  by_contra hno
  have hsplit : before ++ .ret t .take (some b) :: (between ++ .ret u .take (some b) :: after) =
      (before ++ .ret t .take (some b) :: between) ++ [.ret u .take (some b)] ++ after := by simp
  rw [hsplit] at hl hp
  exact not_held_of_returned hl.prefix hp.of_append.of_append
    ⟨before, t, between, rfl, fun v hv => hno ⟨v, hv⟩⟩

end Pool
