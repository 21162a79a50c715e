import ChartPipeline.Node.Source
import ChartPipeline.Proofs.Json.Printing
import Mathlib.Data.List.Basic

/-!
# What the identity of data tells

Data of the same identity is declared alike, so it does not matter which declaration a source was
made from (`Data.identity_injective`).
-/

namespace ChartPipeline

theorem Coercions.toJson_injective : Function.Injective Coercions.toJson := by
  intro c c' h
  refine List.map_injective_iff.mpr (fun entry entry' he => ?_) (Json.object.inj h)
  obtain ⟨hfield, hkind⟩ := Prod.mk.inj he
  exact Prod.ext hfield (Json.string.inj hkind)

namespace DataFormat

theorem get?_toJson (f : DataFormat) : f.toJson.get? "type" = f.type.map .string ∧
    f.toJson.get? "parse" = f.parse.map Coercions.toJson ∧
    f.toJson.get? "property" = f.property.map .string := by
  obtain ⟨type, parse, property⟩ := f
  cases type <;> cases parse <;> cases property <;> exact ⟨rfl, rfl, rfl⟩

theorem toJson_injective : Function.Injective toJson := by
  intro f f' h
  obtain ⟨htype, hparse, hproperty⟩ := get?_toJson f
  obtain ⟨htype', hparse', hproperty'⟩ := get?_toJson f'
  rw [h] at htype hparse hproperty
  have hstring : Function.Injective Json.string := fun _ _ => Json.string.inj
  obtain ⟨type, parse, property⟩ := f
  obtain rfl := Option.map_injective hstring (htype.symm.trans htype')
  obtain rfl := Option.map_injective Coercions.toJson_injective (hparse.symm.trans hparse')
  obtain rfl := Option.map_injective hstring (hproperty.symm.trans hproperty')
  rfl

end DataFormat

namespace Data

theorem get?_toJson (d : Data) : d.toJson.get? "name" = d.name.map .string ∧
    d.toJson.get? "url" = d.url.map .string ∧ d.toJson.get? "values" = d.values.map .array ∧
    d.toJson.get? "format" = d.format.map DataFormat.toJson := by
  obtain ⟨name, url, values, format⟩ := d
  cases name <;> cases url <;> cases values <;> cases format <;> exact ⟨rfl, rfl, rfl, rfl⟩

theorem identity_injective : Function.Injective identity := by
  intro d e h
  have hjson : d.toJson = e.toJson := Json.compact_injective h
  obtain ⟨hname, hurl, hvalues, hformat⟩ := get?_toJson d
  obtain ⟨hname', hurl', hvalues', hformat'⟩ := get?_toJson e
  rw [hjson] at hname hurl hvalues hformat
  have hstring : Function.Injective Json.string := fun _ _ => Json.string.inj
  have harray : Function.Injective Json.array := fun _ _ => Json.array.inj
  obtain ⟨name, url, values, format⟩ := d
  obtain rfl := Option.map_injective hstring (hname.symm.trans hname')
  obtain rfl := Option.map_injective hstring (hurl.symm.trans hurl')
  obtain rfl := Option.map_injective harray (hvalues.symm.trans hvalues')
  obtain rfl := Option.map_injective DataFormat.toJson_injective (hformat.symm.trans hformat')
  rfl

instance : DecidableEq Data := fun d e =>
  decidable_of_iff (d.identity = e.identity) identity_injective.eq_iff

end Data

end ChartPipeline
