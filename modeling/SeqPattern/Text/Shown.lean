import SeqPattern.Text.Quoted

namespace SeqPattern

class Shown (α : Type) where
  shown : α → String

export Shown (shown)

instance : Shown Int := ⟨toString⟩

instance : Shown Char := ⟨fun c => Text.quoted '\'' [c]⟩

instance : Shown String := ⟨fun s => Text.quoted '"' s.toList⟩

end SeqPattern
