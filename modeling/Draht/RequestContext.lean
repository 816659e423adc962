import Draht.Surrogates
import Draht.TransformMessages

/-!
# What a request is made from

The context that a provider is asked about, what is read of the target model, and the texts that
requests carry.
-/

namespace Draht.Providers

structure TargetModel extends Model where
  reasoning : Bool
  input : List String
deriving DecidableEq

structure Context where
  systemPrompt : Option String
  messages : List Message
deriving DecidableEq

def sentText (b : TextContent) : JsText := sanitizeSurrogates false (utf16 b.text)

theorem sentText_eq (b : TextContent) : sentText b = utf16 b.text :=
  sanitizeSurrogates_of_wellFormed (wellFormed_utf16Chars b.text.toList)

def dataUrl (image : ImageContent) : JsText :=
  utf16 ("data:" ++ image.mimeType ++ ";base64," ++ image.data)

def resultText? : ContentBlock → Option JsText
  | .text block => some (utf16 block.text)
  | .image _ => none

end Draht.Providers
