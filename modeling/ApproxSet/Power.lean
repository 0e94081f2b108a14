/-!
# Powers

Sizes are powers of two. A power of natural numbers is read as that of the core library everywhere,
also in modules that see the powers of other structures.
-/

attribute [instance (1100), default_instance 20000] instPowNat
