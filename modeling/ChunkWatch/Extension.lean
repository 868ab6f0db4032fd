import ChunkWatch.Text.Blank
import ChunkWatch.Text.LowerCase

namespace ChunkWatch

abbrev Extension := String

def Extension.normalize (s : String) : Extension :=
  match Text.lower (Text.trim s.toList) with
  | '.' :: cs => String.ofList ('.' :: cs)
  | cs => String.ofList ('.' :: cs)

end ChunkWatch
