import Retrace.Proofs.Datum.Key
import Retrace.Proofs.Json.NumberSpelling

/-! What a key tells when every number is one that 64 bits can hold: such numbers are told by their
text, so values that are alike are the same, and composite values with one key have the same parts. -/
namespace Retrace.Datum

/-- A value whose numbers are all such that 64 bits can hold them. -/
def Representable (d : Datum) : Prop := ∀ n, .number n ∈ d.visits → n.Representable

theorem Representable.of_mem_parts {p d : Datum} (h : d.Representable) (hp : p ∈ d.parts) :
    p.Representable :=
  fun n hn => h n (mem_visits_of_part hp hn)

theorem Representable.of_mem_visits {p d : Datum} (h : d.Representable) (hp : p ∈ d.visits) :
    p.Representable :=
  fun n hn => h n (mem_visits_trans hn hp)

private theorem entries_eq {ds es : List (String × Datum)}
    (names : ds.map Prod.fst = es.map Prod.fst) (values : ds.map Prod.snd = es.map Prod.snd) :
    ds = es := by
  have hzip (entries : List (String × Datum)) :
      (entries.map Prod.fst).zip (entries.map Prod.snd) = entries :=
    (List.zip_of_prod rfl rfl).symm
  rw [← hzip ds, names, values, hzip]

/-- Values that are alike are the same. -/
theorem Alike.eq {d e : Datum} (h : Alike d e) (hd : d.Representable) (he : e.Representable) :
    d = e := by
  induction d using partsInduction generalizing e with
  | step d ih =>
    have hparts : d.parts = e.parts := by
      rw [← List.forall₂_eq_eq_eq]
      refine forall₂_imp_mem h.parts fun p hp q hq hpq => ?_
      exact ih p hp hpq (hd.of_mem_parts hp) (he.of_mem_parts hq)
    cases h with
    | number htext =>
      exact congrArg Datum.number (Number.text_inj (hd _ (mem_visits_self _)) (he _ (mem_visits_self _))
        htext)
    | list _ => exact congrArg Datum.list hparts
    | mapping names _ => exact congrArg Datum.mapping (entries_eq names hparts)
    | object className names _ => exact congrArg (Datum.object className) (entries_eq names hparts)
    | _ => rfl

/-- Composite values that were read and have one key have the same parts. -/
theorem parts_eq_of_key_eq {d e : Datum} (hd : Decoded d) (he : Decoded e) (hdr : d.Representable)
    (her : e.Representable) (hdc : d.isComposite = true) (hec : e.isComposite = true)
    (h : d.key = e.key) : d.parts = e.parts := by
  rw [← List.forall₂_eq_eq_eq]
  refine forall₂_imp_mem (alike_parts_of_key_eq hd he hdc hec h) fun p hp q hq hpq => ?_
  exact hpq.eq (hdr.of_mem_parts hp) (her.of_mem_parts hq)

end Retrace.Datum
